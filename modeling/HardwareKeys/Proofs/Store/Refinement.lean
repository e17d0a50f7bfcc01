import HardwareKeys.Proofs.Store.Catalog

/-!
# The store is a catalog

The store keeps parameters and builds a descriptor on every look-up; a catalog keeps the descriptors. A store represents a catalog when building from its entries gives the entries of the catalog. Each call keeps this and answers the same on both sides, so the two cannot be told apart by any sequence of calls.
-/

namespace HardwareKeys.Store

section Updates

variable {s : Store} {p : KeyParams}

theorem step_insert_of_ok {d : Descriptor} (h : Descriptor.ofParams p = .ok d) :
    (s.step (.insert p)).value =
      ({ s with entries := s.entries.insert d.keyAlias p }, .done) := by
  simp [step, insert, settle, Descriptor.keyAlias_of_ofParams h]

theorem step_insert_of_noAlias (h : p.keyAlias = none) :
    (s.step (.insert p)).value = (s, .failed .missingAlias) := by
  simp [step, insert, settle, h]

theorem step_remove_of_mem {keyAlias : String} (h : keyAlias ∈ s.entries) :
    (s.step (.remove keyAlias)).value =
      ({ s with entries := s.entries.erase keyAlias }, .done) := by
  simp [step, remove, settle, h]

theorem step_remove_of_notMem {keyAlias : String} (h : keyAlias ∉ s.entries) :
    (s.step (.remove keyAlias)).value = (s, .failed (.keyNotFound keyAlias)) := by
  simp [step, remove, settle, h]

end Updates

/-- The entries of the catalog are what is built from those of the store. -/
structure Represents (s : Store) (c : Catalog) : Prop where
  name : s.name = c.name
  lookup : ∀ keyAlias, s.entries[keyAlias]?.map Descriptor.ofParams =
    (c.entries.lookup keyAlias).map Except.ok

namespace Represents

variable {s : Store} {c : Catalog}

theorem keyInfo (h : s.Represents c) (keyAlias : String) :
    (s.keyInfo keyAlias).value = match c.entries.lookup keyAlias with
      | some d => .ok d
      | none => .error (.keyNotFound keyAlias) := by
  have hlookup := h.lookup keyAlias
  cases hentry : s.entries[keyAlias]? with
  | none =>
    rw [hentry, Option.map_none, eq_comm, Option.map_eq_none_iff] at hlookup
    simp [Store.keyInfo, hentry, hlookup]
  | some p =>
    rw [hentry, Option.map_some, eq_comm, Option.map_eq_some_iff] at hlookup
    obtain ⟨d, hd, hbuilt⟩ := hlookup
    simp [Store.keyInfo, hentry, hd, hbuilt]

theorem mem_iff (h : s.Represents c) {keyAlias : String} :
    keyAlias ∈ s.entries ↔ keyAlias ∈ c.entries := by
  have hsome := congrArg Option.isSome (h.lookup keyAlias)
  rw [Option.isSome_map, Option.isSome_map] at hsome
  rw [Std.ExtTreeMap.mem_iff_isSome_getElem?, hsome, Finmap.lookup_isSome]

theorem contains (h : s.Represents c) (keyAlias : String) :
    (s.contains keyAlias).value = decide (keyAlias ∈ c.entries) := by
  have hsome : (c.entries.lookup keyAlias).isSome = decide (keyAlias ∈ c.entries) := by
    rw [Bool.eq_iff_iff, Finmap.lookup_isSome, decide_eq_true_eq]
  rw [Store.contains, Logged.value_bind, Logged.value_pure, h.keyInfo, ← hsome]
  cases c.entries.lookup keyAlias <;> rfl

theorem aliases (h : s.Represents c) : s.aliases = c.entries.keys.sort (· ≤ ·) := by
  have hstore : s.aliases.Pairwise (· < ·) := s.entries.ordered_keys.imp compare_lt_iff_lt.mp
  have hcatalog := (Finset.sortedLT_sort c.entries.keys).pairwise
  -- There is only one strictly increasing list with these members.
  refine hstore.eq_of_mem_iff hcatalog fun keyAlias => ?_
  rw [Store.aliases, Std.ExtTreeMap.mem_keys, Finset.mem_sort, Finmap.mem_keys, h.mem_iff]

theorem size (h : s.Represents c) : s.size = c.entries.keys.card := by
  calc
    s.size = s.aliases.length := Std.ExtTreeMap.length_keys.symm
    _ = c.entries.keys.card := by rw [h.aliases, Finset.length_sort]

theorem isEmpty (h : s.Represents c) : s.isEmpty = decide (c.entries.keys = ∅) := by
  calc
    s.isEmpty = (s.size == 0) := Std.ExtTreeMap.isEmpty_eq_size_beq_zero
    _ = decide (c.entries.keys = ∅) := by
      rw [h.size, Bool.eq_iff_iff, beq_iff_eq, Finset.card_eq_zero, decide_eq_true_eq]

theorem insert (h : s.Represents c) {p : KeyParams} {d : Descriptor}
    (hbuilt : Descriptor.ofParams p = .ok d) :
    Represents { s with entries := s.entries.insert d.keyAlias p }
      { c with entries := c.entries.insert d.keyAlias d } where
  name := h.name
  lookup keyAlias := by
    by_cases halias : d.keyAlias = keyAlias
    · rw [← halias, Finmap.lookup_insert]
      simp [hbuilt]
    · rw [Finmap.lookup_insert_of_ne _ (Ne.symm halias), ← h.lookup]
      simp [Std.ExtTreeMap.getElem?_insert, halias]

theorem erase (h : s.Represents c) (removed : String) :
    Represents { s with entries := s.entries.erase removed }
      { c with entries := c.entries.erase removed } where
  name := h.name
  lookup keyAlias := by
    by_cases halias : removed = keyAlias
    · rw [← halias, Finmap.lookup_erase]
      simp
    · rw [Finmap.lookup_erase_ne (Ne.symm halias), ← h.lookup]
      simp [Std.ExtTreeMap.getElem?_erase, halias]

theorem keyInfo_insert (h : s.Represents c) {p : KeyParams} {d : Descriptor}
    (hbuilt : Descriptor.ofParams p = .ok d) (keyAlias : String) :
    ((s.step (.insert p)).value.1.keyInfo keyAlias).value =
      if keyAlias = d.keyAlias then .ok d else (s.keyInfo keyAlias).value := by
  rw [step_insert_of_ok hbuilt, (h.insert hbuilt).keyInfo]
  split_ifs with halias
  · rw [halias, Finmap.lookup_insert]
  · rw [Finmap.lookup_insert_of_ne _ halias, h.keyInfo]

theorem step (h : s.Represents c) (call : Call) :
    (s.step call).value.1.Represents (c.step call).1 ∧
      (s.step call).value.2 = (c.step call).2 := by
  cases call with
  | insert p =>
    cases hbuilt : Descriptor.ofParams p with
    | error e =>
      obtain ⟨halias, rfl⟩ := Descriptor.ofParams_eq_error_iff.mp hbuilt
      rw [step_insert_of_noAlias halias, Catalog.step, hbuilt]
      exact ⟨h, rfl⟩
    | ok d =>
      rw [step_insert_of_ok hbuilt, Catalog.step, hbuilt]
      exact ⟨h.insert hbuilt, rfl⟩
  | remove removed =>
    by_cases hmem : removed ∈ c.entries
    · rw [step_remove_of_mem (h.mem_iff.mpr hmem), Catalog.step, if_pos hmem]
      exact ⟨h.erase removed, rfl⟩
    · have hstore : removed ∉ s.entries := fun hin => hmem (h.mem_iff.mp hin)
      rw [step_remove_of_notMem hstore, Catalog.step, if_neg hmem]
      exact ⟨h, rfl⟩
  | keyInfo keyAlias =>
    simp only [Store.step, Logged.value_map, h.keyInfo, Catalog.step]
    cases c.entries.lookup keyAlias <;> exact ⟨h, rfl⟩
  | contains keyAlias => exact ⟨h, congrArg Reply.flag (h.contains keyAlias)⟩
  | aliases => exact ⟨h, congrArg Reply.aliases h.aliases⟩
  | size => exact ⟨h, congrArg Reply.size h.size⟩
  | isEmpty => exact ⟨h, congrArg Reply.flag h.isEmpty⟩
  | name => exact ⟨h, congrArg Reply.name h.name⟩

theorem run (h : s.Represents c) (calls : List Call) :
    (s.run calls).value.1.Represents (c.run calls).1 ∧
      (s.run calls).value.2 = (c.run calls).2 := by
  induction calls generalizing s c with
  | nil => exact ⟨h, rfl⟩
  | cons call rest ih =>
    obtain ⟨hnext, hreply⟩ := h.step call
    obtain ⟨hlast, hreplies⟩ := ih hnext
    exact ⟨hlast, List.cons_eq_cons.mpr ⟨hreply, hreplies⟩⟩

end Represents

theorem represents_create (name : String) : (create name).value.Represents (.empty name) where
  name := rfl
  lookup keyAlias := by simp [create, Catalog.empty]

/-! ### Sequences of calls on a fresh store -/

/-- The call with every token list of its parameters present. -/
def Call.withLists : Call → Call
  | .insert p => .insert p.withLists
  | call => call

theorem step_withLists (c : Catalog) (call : Call) : c.step call.withLists = c.step call := by
  cases call with
  | insert p => rw [Call.withLists, Catalog.step, Catalog.step, Descriptor.ofParams_withLists]
  | _ => rfl

theorem run_map_withLists (c : Catalog) (calls : List Call) :
    c.run (calls.map Call.withLists) = c.run calls := by
  induction calls generalizing c with
  | nil => rfl
  | cons call rest ih =>
    rw [List.map_cons, Catalog.run_cons, Catalog.run_cons, step_withLists, ih]

/-- The store that was made under the name and has carried out the calls. -/
def after (name : String) (calls : List Call) : Store := ((create name).value.run calls).value.1

def replies (name : String) (calls : List Call) : List Reply :=
  ((create name).value.run calls).value.2

def history (name : String) (calls : List Call) : List Catalog.Exchange :=
  calls.zip (replies name calls)

section Fresh

variable {name : String} {calls : List Call}

theorem represents_after (name : String) (calls : List Call) :
    (after name calls).Represents ((Catalog.empty name).run calls).1 :=
  ((represents_create name).run calls).1

theorem replies_eq (name : String) (calls : List Call) :
    replies name calls = ((Catalog.empty name).run calls).2 :=
  ((represents_create name).run calls).2

theorem lookup_iff_lastStored {keyAlias : String} {d : Descriptor} :
    ((Catalog.empty name).run calls).1.entries.lookup keyAlias = some d ↔
      Catalog.LastStored keyAlias d (history name calls) := by
  rw [Catalog.lookup_run_iff, history, replies_eq]
  simp [Catalog.empty]

theorem keyInfo_after_eq_ok_iff {keyAlias : String} {d : Descriptor} :
    ((after name calls).keyInfo keyAlias).value = .ok d ↔
      Catalog.LastStored keyAlias d (history name calls) := by
  rw [(represents_after name calls).keyInfo, ← lookup_iff_lastStored]
  split <;> simp [*]

theorem lookup_eq_none_iff {keyAlias : String} :
    ((Catalog.empty name).run calls).1.entries.lookup keyAlias = none ↔
      ∀ d, ¬Catalog.LastStored keyAlias d (history name calls) := by
  simp only [← lookup_iff_lastStored, Option.eq_none_iff_forall_ne_some, ne_eq]

theorem keyInfo_after_eq_error_iff {keyAlias : String} {e : KeyError} :
    ((after name calls).keyInfo keyAlias).value = .error e ↔
      (∀ d, ¬Catalog.LastStored keyAlias d (history name calls)) ∧ e = .keyNotFound keyAlias := by
  rw [(represents_after name calls).keyInfo, ← lookup_eq_none_iff]
  split <;> simp [*, eq_comm]

theorem notMem_after_iff {keyAlias : String} :
    keyAlias ∉ (after name calls).entries ↔
      ∀ d, ¬Catalog.LastStored keyAlias d (history name calls) := by
  rw [(represents_after name calls).mem_iff, ← Finmap.lookup_eq_none, lookup_eq_none_iff]

/-- A fresh store answers every sequence of calls like a catalog, a look-up finds what the last change of the alias stored, a call that fails changes nothing, and absent lists are not told from empty ones. -/
theorem replies_refine_catalog (name : String) (calls : List Call) :
    replies name calls = ((Catalog.empty name).run calls).2 ∧
    (∀ keyAlias d, ((after name calls).keyInfo keyAlias).value = .ok d ↔
      Catalog.LastStored keyAlias d (history name calls)) ∧
    (∀ keyAlias e, ((after name calls).keyInfo keyAlias).value = .error e ↔
      (∀ d, ¬Catalog.LastStored keyAlias d (history name calls)) ∧ e = .keyNotFound keyAlias) ∧
    (∀ p d, Descriptor.ofParams p = .ok d → p.keyAlias = some d.keyAlias ∧
      ((after name calls).step (.insert p)).value.2 = .done ∧
      ∀ keyAlias, (((after name calls).step (.insert p)).value.1.keyInfo keyAlias).value =
        if keyAlias = d.keyAlias then .ok d else ((after name calls).keyInfo keyAlias).value) ∧
    (∀ p, p.keyAlias = none →
      ((after name calls).step (.insert p)).value = (after name calls, .failed .missingAlias)) ∧
    (∀ keyAlias, (∀ d, ¬Catalog.LastStored keyAlias d (history name calls)) →
      ((after name calls).step (.remove keyAlias)).value =
        (after name calls, .failed (.keyNotFound keyAlias))) ∧
    (∀ others, others.map Call.withLists = calls.map Call.withLists →
      replies name others = replies name calls) := by
  refine ⟨replies_eq name calls, fun _ _ => keyInfo_after_eq_ok_iff,
    fun _ _ => keyInfo_after_eq_error_iff, fun p d hbuilt => ?_,
    fun p halias => step_insert_of_noAlias halias,
    fun keyAlias habsent => step_remove_of_notMem (notMem_after_iff.mpr habsent),
    fun others hlists => ?_⟩
  · refine ⟨Descriptor.keyAlias_of_ofParams hbuilt, ?_,
      (represents_after name calls).keyInfo_insert hbuilt⟩
    rw [step_insert_of_ok hbuilt]
  · calc
      replies name others = ((Catalog.empty name).run (others.map Call.withLists)).2 := by
        rw [run_map_withLists, replies_eq]
      _ = ((Catalog.empty name).run (calls.map Call.withLists)).2 := by rw [hlists]
      _ = replies name calls := by rw [run_map_withLists, replies_eq]

end Fresh

end HardwareKeys.Store

import Mathlib.Data.List.Perm.Basic
import HardwareKeys.Proofs.Store.Entries

/-!
# Updates of different aliases

An update acts on the entry of its own alias and answers for that entry, so updates of different aliases do not notice each other and can be carried out in any order. On one alias the last update counts: an earlier one is forgotten, and a removal leaves nothing of all that was ever inserted.
-/

namespace HardwareKeys.Store

namespace Call

/-- No alias is named by both calls. -/
def Apart (u v : Call) : Prop := ∀ keyAlias ∈ u.keyAlias?, v.keyAlias? ≠ some keyAlias

variable {u v : Call} {keyAlias : String}

theorem Apart.symm (h : u.Apart v) : v.Apart u :=
  fun keyAlias hv hu => h keyAlias hu hv

instance : Std.Symm Apart := ⟨fun _ _ => Apart.symm⟩

theorem Apart.not_touches (h : u.Apart v) (hu : u.Touches keyAlias) : ¬v.Touches keyAlias :=
  fun hv => h keyAlias hu.2 hv.2

theorem Apart.leaves_comm (h : u.Apart v) (entry : Option KeyParams) :
    v.leaves keyAlias (u.leaves keyAlias entry) = u.leaves keyAlias (v.leaves keyAlias entry) := by
  by_cases hu : u.Touches keyAlias
  · have hv := h.not_touches hu
    rw [leaves_of_not_touches hv, leaves_of_not_touches hv]
  · rw [leaves_of_not_touches hu, leaves_of_not_touches hu]

/-- The answer of an update is told by the entry of its alias. -/
theorem IsUpdate.reply_eq (hu : u.IsUpdate) {s t : Store}
    (h : ∀ keyAlias ∈ u.keyAlias?, s.entries[keyAlias]? = t.entries[keyAlias]?) :
    (s.step u).value.2 = (t.step u).value.2 := by
  cases hu with
  | insert p =>
    cases halias : p.keyAlias with
    | none => rw [step_insert_of_noAlias halias, step_insert_of_noAlias halias]
    | some keyAlias =>
      rw [step, step, insert_of_alias halias, insert_of_alias halias]
      rfl
  | remove keyAlias =>
    have hentry := h keyAlias rfl
    have hmem : keyAlias ∈ s.entries ↔ keyAlias ∈ t.entries := by
      rw [Std.ExtTreeMap.mem_iff_isSome_getElem?, hentry, Std.ExtTreeMap.mem_iff_isSome_getElem?]
    by_cases ht : keyAlias ∈ t.entries
    · rw [step_remove_of_mem (hmem.mpr ht), step_remove_of_mem ht]
    · rw [step_remove_of_notMem (mt hmem.mp ht), step_remove_of_notMem ht]

theorem Apart.reply_step (h : u.Apart v) (hv : v.IsUpdate) (s : Store) :
    ((s.step u).value.1.step v).value.2 = (s.step v).value.2 := by
  refine hv.reply_eq fun keyAlias halias => ?_
  rw [getElem?_step, leaves_of_not_touches fun hu => h keyAlias hu.2 halias]

end Call

section Orders

variable (name : String) (calls : List Call)

theorem keyInfo_congr {s t : Store} {keyAlias : String} (hname : s.name = t.name)
    (hentry : s.entries[keyAlias]? = t.entries[keyAlias]?) :
    s.keyInfo keyAlias = t.keyInfo keyAlias := by
  rw [keyInfo, keyInfo, hname, hentry]

theorem keyInfo_after_of_ne {call : Call} {keyAlias : String}
    (h : call.keyAlias? ≠ some keyAlias) :
    (after name (calls ++ [call])).keyInfo keyAlias = (after name calls).keyInfo keyAlias := by
  apply keyInfo_congr
  · rw [name_after, name_after]
  · rw [getElem?_after, getElem?_after, List.foldl_concat,
      Call.leaves_of_not_touches fun htouches => h htouches.2]

/-- Calls of which no two name one alias leave the same store in every order. -/
theorem after_perm {first second : List Call} (hperm : first.Perm second)
    (hapart : first.Pairwise Call.Apart) :
    after name (calls ++ first) = after name (calls ++ second) := by
  apply ext_entries
  · rw [name_after, name_after]
  intro keyAlias
  rw [getElem?_after, getElem?_after, List.foldl_append, List.foldl_append]
  refine hperm.foldl_eq' (fun u hu v hv entry => ?_) _
  by_cases heq : u = v
  · rw [heq]
  · have huv : u.Apart v := hapart.forall hu hv heq
    exact huv.leaves_comm entry

theorem replies_pair (u v : Call) :
    replies name (calls ++ [u, v]) = replies name calls ++
      [((after name calls).step u).value.2,
        (((after name calls).step u).value.1.step v).value.2] := by
  rw [replies_append]
  rfl

theorem replies_swap {u v : Call} (hu : u.IsUpdate) (hv : v.IsUpdate) (h : u.Apart v) :
    ∃ x y, replies name (calls ++ [u, v]) = replies name calls ++ [x, y] ∧
      replies name (calls ++ [v, u]) = replies name calls ++ [y, x] := by
  refine ⟨((after name calls).step u).value.2, ((after name calls).step v).value.2, ?_, ?_⟩
  · rw [replies_pair, h.reply_step hv]
  · rw [replies_pair, h.symm.reply_step hu]

end Orders

/-! ### Updates of one alias -/

/-- The call stores something under the alias. -/
def Call.storesUnder (keyAlias : String) : Call → Bool
  | .insert p => p.keyAlias = some keyAlias
  | _ => false

theorem Call.touches_of_storesUnder {keyAlias : String} {call : Call}
    (h : call.storesUnder keyAlias = true) : call.Touches keyAlias := by
  cases call with
  | insert p => exact ⟨.insert p, of_decide_eq_true h⟩
  | _ => cases h

section OneAlias

variable {keyAlias : String} {calls : List Call}

theorem foldl_leaves_filter {keep : Call → Bool}
    (h : ∀ call, keep call = false → ¬call.Touches keyAlias) (entry : Option KeyParams) :
    (calls.filter keep).foldl (Call.leaves keyAlias) entry =
      calls.foldl (Call.leaves keyAlias) entry := by
  induction calls generalizing entry with
  | nil => rfl
  | cons call calls ih =>
    cases hkeep : keep call with
    | true => rw [List.filter_cons_of_pos hkeep, List.foldl_cons, List.foldl_cons, ih]
    | false =>
      rw [List.filter_cons_of_neg (Bool.eq_false_iff.mp hkeep), List.foldl_cons,
        Call.leaves_of_not_touches (h call hkeep), ih]

theorem foldl_leaves_of_not_stored (h : ∀ call ∈ calls, call.storesUnder keyAlias = false) :
    calls.foldl (Call.leaves keyAlias) none = none := by
  induction calls with
  | nil => rfl
  | cons call calls ih =>
    obtain ⟨hcall, hcalls⟩ := List.forall_mem_cons.mp h
    have hnone : call.leaves keyAlias none = none := by
      cases call with
      | insert p => exact if_neg (of_decide_eq_false hcall)
      | remove removed => exact ite_self none
      | _ => rfl
    rw [List.foldl_cons, hnone, ih hcalls]

theorem after_insert_insert (name : String) (calls : List Call) {p q : KeyParams}
    (h : p.keyAlias = q.keyAlias) :
    after name (calls ++ [Call.insert p, Call.insert q]) =
      after name (calls ++ [Call.insert q]) := by
  apply ext_entries
  · rw [name_after, name_after]
  intro keyAlias
  simp only [getElem?_after, List.foldl_append, List.foldl_cons, List.foldl_nil]
  by_cases hq : (Call.insert q).Touches keyAlias
  · exact Call.leaves_of_touches hq _ _
  · have hp : ¬(Call.insert p).Touches keyAlias :=
      fun htouches => hq ⟨.insert q, h.symm.trans htouches.2⟩
    rw [Call.leaves_of_not_touches hp]

/-- A removal leaves the store as if nothing had ever been stored under the alias. -/
theorem after_insert_remove (name : String) (calls : List Call) {p : KeyParams} {keyAlias : String}
    (h : p.keyAlias = some keyAlias) :
    after name (calls ++ [Call.insert p, Call.remove keyAlias]) =
      after name (calls.filter fun call => !call.storesUnder keyAlias) := by
  apply ext_entries
  · rw [name_after, name_after]
  intro other
  simp only [getElem?_after, List.foldl_append, List.foldl_cons, List.foldl_nil]
  by_cases hother : keyAlias = other
  · subst hother
    have hnone : (calls.filter fun call => !call.storesUnder keyAlias).foldl
        (Call.leaves keyAlias) none = none := by
      refine foldl_leaves_of_not_stored fun call hcall => ?_
      simpa using (List.mem_filter.mp hcall).2
    rw [hnone]
    exact if_pos rfl
  · have hleaves : ∀ {call : Call}, call.keyAlias? = some keyAlias → ¬call.Touches other :=
      fun halias htouches => hother (Option.some.inj (halias.symm.trans htouches.2))
    have hkeep : ∀ call : Call, (!call.storesUnder keyAlias) = false → ¬call.Touches other := by
      intro call hstores
      exact hleaves (Call.touches_of_storesUnder (by simpa using hstores)).2
    have hinsert : (Call.insert p).keyAlias? = some keyAlias := h
    rw [Call.leaves_of_not_touches (hleaves rfl), Call.leaves_of_not_touches (hleaves hinsert),
      foldl_leaves_filter hkeep]

end OneAlias

/-- Updates of different aliases can change places: each answers the same and the same store is left, and so with any number of insertions. No call changes what is found under an alias that it does not name. On one alias a second insertion makes up for the first, and a removal for everything that was stored. -/
theorem updates_independent (name : String) (calls : List Call) :
    (∀ u v : Call, u.IsUpdate → v.IsUpdate → u.Apart v →
      after name (calls ++ [u, v]) = after name (calls ++ [v, u]) ∧
      ∃ x y, replies name (calls ++ [u, v]) = replies name calls ++ [x, y] ∧
        replies name (calls ++ [v, u]) = replies name calls ++ [y, x]) ∧
    (∀ (call : Call) (keyAlias : String), call.keyAlias? ≠ some keyAlias →
      (after name (calls ++ [call])).keyInfo keyAlias = (after name calls).keyInfo keyAlias) ∧
    (∀ ps qs : List KeyParams, ps.Perm qs → (ps.filterMap KeyParams.keyAlias).Nodup →
      after name (calls ++ ps.map Call.insert) = after name (calls ++ qs.map Call.insert)) ∧
    (∀ p q : KeyParams, p.keyAlias = q.keyAlias →
      after name (calls ++ [Call.insert p, Call.insert q]) =
        after name (calls ++ [Call.insert q])) ∧
    ∀ (p : KeyParams) (keyAlias : String), p.keyAlias = some keyAlias →
      after name (calls ++ [Call.insert p, Call.remove keyAlias]) =
        after name (calls.filter fun call => !call.storesUnder keyAlias) := by
  refine ⟨fun u v hu hv h => ⟨?swap, replies_swap name calls hu hv h⟩,
    fun call keyAlias => keyInfo_after_of_ne name calls, fun ps qs hperm hnodup => ?insertions,
    fun p q => after_insert_insert name calls, fun p keyAlias => after_insert_remove name calls⟩
  case swap =>
    have hapart : [u, v].Pairwise Call.Apart := by simpa using h
    exact after_perm name calls (.swap v u []) hapart
  case insertions =>
    refine after_perm name calls (hperm.map _) ?_
    rw [List.pairwise_map]
    refine (List.pairwise_filterMap.mp hnodup).imp fun {p q} hpq keyAlias hp hq => ?_
    exact hpq keyAlias hp keyAlias hq rfl

def named (keyAlias : String) : KeyParams := { keyAlias := some keyAlias }

/-- Another key of the same alias. -/
def longer (p : KeyParams) : KeyParams := { p with keySize := 4096 }

theorem apart_removal_insertion : (Call.remove "a").Apart (.insert (named "b")) := by
  intro keyAlias hremoved hinserted
  obtain rfl := Option.some.inj hremoved
  exact absurd hinserted (by decide)

theorem updates_twoAliases :
    (Call.remove "a").Apart (.insert (named "b")) ∧
    after "store" ([Call.insert (named "a")] ++ [Call.remove "a", Call.insert (named "b")]) =
      after "store" ([Call.insert (named "a")] ++ [Call.insert (named "b"), Call.remove "a"]) ∧
    (after "store" ([Call.insert (named "a")] ++ [Call.remove "a"])).keyInfo "b" =
      (after "store" [Call.insert (named "a")]).keyInfo "b" ∧
    after "store" ([Call.insert (named "a")] ++ [longer (named "a"), named "b"].map Call.insert) =
      after "store" ([Call.insert (named "a")] ++ [named "b", longer (named "a")].map Call.insert) ∧
    after "store" ([Call.insert (named "a")] ++
      [Call.insert (longer (named "b")), Call.insert (named "b")]) =
      after "store" ([Call.insert (named "a")] ++ [Call.insert (named "b")]) ∧
    after "store" ([Call.insert (named "a")] ++
      [Call.insert (longer (named "a")), Call.remove "a"]) = after "store" [] := by
  obtain ⟨hswap, hother, hperm, hagain, hremoved⟩ :=
    updates_independent "store" [.insert (named "a")]
  obtain ⟨hstores, -⟩ := hswap _ _ (.remove "a") (.insert (named "b")) apart_removal_insertion
  have hnever : [Call.insert (named "a")].filter (fun call => !call.storesUnder "a") = [] := rfl
  refine ⟨apart_removal_insertion, hstores, ?_, ?_, ?_, ?_⟩
  · exact hother (.remove "a") "b" (by decide)
  · exact hperm _ _ (.swap _ _ _) (by decide)
  · exact hagain (longer (named "b")) (named "b") rfl
  · rw [hremoved (longer (named "a")) "a" rfl, hnever]

end HardwareKeys.Store

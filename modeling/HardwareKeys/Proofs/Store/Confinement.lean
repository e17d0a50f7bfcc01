import HardwareKeys.Proofs.Store.Observers

/-!
# What the log reveals

Of the parameters in a store the log shows their alias, origin and purposes and whether the key is inside secure hardware. Parameters that agree in these look alike, and two stores look alike when they hold parameters that look alike under the same aliases. Calls that look alike report the same events on such stores and leave such stores behind, so two runs cannot be told apart by their logs, nor by any answer but the descriptors handed out.
-/

namespace HardwareKeys

/-- The parameters agree in everything that the log shows. -/
structure KeyParams.LooksLike (p q : KeyParams) : Prop where
  keyAlias : p.keyAlias = q.keyAlias
  origin : p.origin = q.origin
  purposes : p.purposes = q.purposes
  insideSecureHardware : p.insideSecureHardware = q.insideSecureHardware

namespace Store

/-- The calls are the same, up to inserted parameters that look alike. -/
inductive Call.LooksLike : Call → Call → Prop
  | insert {p q : KeyParams} (h : p.LooksLike q) : LooksLike (.insert p) (.insert q)
  | same (call : Call) : LooksLike call call

/-- The replies are the same, up to the contents of a descriptor. -/
inductive Reply.LooksLike : Reply → Reply → Prop
  | descriptor (d e : Descriptor) : LooksLike (.descriptor d) (.descriptor e)
  | same (reply : Reply) : LooksLike reply reply

theorem Reply.LooksLike.isOk_eq {x y : Except KeyError Descriptor}
    (h : (Reply.ofLookup x).LooksLike (.ofLookup y)) : x.isOk = y.isOk := by
  cases x with
  | error e =>
    cases y with
    | error f => rfl
    | ok d => cases h
  | ok d =>
    cases y with
    | error f => cases h
    | ok e => rfl

end Store

theorem KeyParams.LooksLike.refl (p : KeyParams) : p.LooksLike p := ⟨rfl, rfl, rfl, rfl⟩

/-- Building reports what the parameters show and nothing else. -/
theorem KeyParams.LooksLike.build {p q : KeyParams} (h : p.LooksLike q) :
    (Descriptor.build p).events = (Descriptor.build q).events ∧
      (Store.Reply.ofLookup (Descriptor.build p).value).LooksLike
        (.ofLookup (Descriptor.build q).value) := by
  cases halias : p.keyAlias with
  | none =>
    have hp := Descriptor.build_of_error (Descriptor.ofParams_of_noAlias halias)
    rw [h.keyAlias] at halias
    have hq := Descriptor.build_of_error (Descriptor.ofParams_of_noAlias halias)
    rw [hp, hq]
    exact ⟨rfl, .same _⟩
  | some keyAlias =>
    obtain ⟨d, hd, hdAlias, -⟩ := Descriptor.ofParams_of_alias halias
    rw [h.keyAlias] at halias
    obtain ⟨e, he, heAlias, -⟩ := Descriptor.ofParams_of_alias halias
    have hevent : d.builtEvent = e.builtEvent := by
      rw [Descriptor.builtEvent_of_ofParams hd, Descriptor.builtEvent_of_ofParams he, hdAlias,
        heAlias, h.origin, h.purposes, h.insideSecureHardware]
    rw [Descriptor.build_of_ok hd, Descriptor.build_of_ok he, hevent]
    exact ⟨rfl, .descriptor d e⟩

namespace Store

/-- The stores have one name and hold parameters that look alike under the same aliases. -/
structure LooksLike (s t : Store) : Prop where
  name : s.name = t.name
  entry : ∀ keyAlias : String,
    Option.Rel KeyParams.LooksLike s.entries[keyAlias]? t.entries[keyAlias]?

namespace LooksLike

variable {s t : Store}

theorem create (name : String) :
    LooksLike (Store.create name).value (Store.create name).value where
  name := rfl
  entry keyAlias := by simp [Store.create]

theorem mem_iff (h : s.LooksLike t) (keyAlias : String) :
    keyAlias ∈ s.entries ↔ keyAlias ∈ t.entries := by
  have hentry := h.entry keyAlias
  rw [Std.ExtTreeMap.mem_iff_isSome_getElem?, Std.ExtTreeMap.mem_iff_isSome_getElem?]
  cases hs : s.entries[keyAlias]? <;> cases ht : t.entries[keyAlias]? <;> simp_all

theorem aliases (h : s.LooksLike t) : s.aliases = t.aliases := by
  refine (aliases_pairwise_lt s).eq_of_mem_iff (aliases_pairwise_lt t) fun keyAlias => ?_
  rw [mem_aliases_iff, mem_aliases_iff]
  exact h.mem_iff keyAlias

theorem size (h : s.LooksLike t) : s.size = t.size := by
  calc
    s.size = s.aliases.length := Std.ExtTreeMap.length_keys.symm
    _ = t.aliases.length := by rw [h.aliases]
    _ = t.size := Std.ExtTreeMap.length_keys

theorem isEmpty (h : s.LooksLike t) : s.isEmpty = t.isEmpty := by
  rw [Bool.eq_iff_iff, isEmpty_iff, isEmpty_iff, h.aliases]

theorem keyInfo (h : s.LooksLike t) (keyAlias : String) :
    (s.keyInfo keyAlias).events = (t.keyInfo keyAlias).events ∧
      (Reply.ofLookup (s.keyInfo keyAlias).value).LooksLike
        (.ofLookup (t.keyInfo keyAlias).value) := by
  have hentry := h.entry keyAlias
  cases hs : s.entries[keyAlias]? with
  | none =>
    have ht : t.entries[keyAlias]? = none := by
      cases ht : t.entries[keyAlias]? with
      | none => rfl
      | some q => simp [hs, ht] at hentry
    rw [keyInfo_of_noEntry hs, keyInfo_of_noEntry ht, h.name]
    exact ⟨rfl, .same _⟩
  | some p =>
    cases ht : t.entries[keyAlias]? with
    | none => simp [hs, ht] at hentry
    | some q =>
      rw [hs, ht, Option.rel_some_some] at hentry
      obtain ⟨hevents, hreply⟩ := hentry.build
      rw [keyInfo_of_entry hs, keyInfo_of_entry ht, h.name, hevents]
      exact ⟨rfl, hreply⟩

theorem contains (h : s.LooksLike t) (keyAlias : String) :
    (s.contains keyAlias).events = (t.contains keyAlias).events ∧
      (s.contains keyAlias).value = (t.contains keyAlias).value := by
  obtain ⟨hevents, hreply⟩ := h.keyInfo keyAlias
  simp only [Store.contains, Logged.events_bind, Logged.events_pure, Logged.value_bind,
    Logged.value_pure]
  rw [hevents, hreply.isOk_eq]
  exact ⟨rfl, rfl⟩

theorem insert (h : s.LooksLike t) {p q : KeyParams} (hparams : p.LooksLike q)
    (keyAlias : String) :
    LooksLike { s with entries := s.entries.insert keyAlias p }
      { t with entries := t.entries.insert keyAlias q } where
  name := h.name
  entry other := by
    rw [Std.ExtTreeMap.getElem?_insert, Std.ExtTreeMap.getElem?_insert]
    split
    · exact .some hparams
    · exact h.entry other

theorem erase (h : s.LooksLike t) (keyAlias : String) :
    LooksLike { s with entries := s.entries.erase keyAlias }
      { t with entries := t.entries.erase keyAlias } where
  name := h.name
  entry other := by
    rw [Std.ExtTreeMap.getElem?_erase, Std.ExtTreeMap.getElem?_erase]
    split
    · exact .none
    · exact h.entry other

/-! ### Runs -/

theorem step_insert (h : s.LooksLike t) {p q : KeyParams} (hparams : p.LooksLike q) :
    (s.step (.insert p)).events = (t.step (.insert q)).events ∧
      (s.step (.insert p)).value.1.LooksLike (t.step (.insert q)).value.1 ∧
      (s.step (.insert p)).value.2.LooksLike (t.step (.insert q)).value.2 := by
  have halias := hparams.keyAlias
  cases hq : q.keyAlias with
  | none =>
    rw [hq] at halias
    rw [Store.step, Store.step, insert_of_noAlias halias, insert_of_noAlias hq]
    exact ⟨rfl, h, .same _⟩
  | some keyAlias =>
    rw [hq] at halias
    rw [Store.step, Store.step, insert_of_alias halias, insert_of_alias hq]
    refine ⟨?_, h.insert hparams keyAlias, .same _⟩
    rw [Logged.events_map, Logged.events_map, h.name]

theorem step_remove (h : s.LooksLike t) (keyAlias : String) :
    (s.step (.remove keyAlias)).events = (t.step (.remove keyAlias)).events ∧
      (s.step (.remove keyAlias)).value.1.LooksLike (t.step (.remove keyAlias)).value.1 ∧
      (s.step (.remove keyAlias)).value.2.LooksLike (t.step (.remove keyAlias)).value.2 := by
  refine ⟨rfl, ?_⟩
  by_cases hmem : keyAlias ∈ t.entries
  · rw [step_remove_of_mem ((h.mem_iff keyAlias).mpr hmem), step_remove_of_mem hmem]
    exact ⟨h.erase keyAlias, .same _⟩
  · have hother : keyAlias ∉ s.entries := fun hin => hmem ((h.mem_iff keyAlias).mp hin)
    rw [step_remove_of_notMem hother, step_remove_of_notMem hmem]
    exact ⟨h, .same _⟩

/-- Calls that look alike, on stores that look alike, report the same and leave stores that look alike. -/
theorem step (h : s.LooksLike t) {call other : Call} (hcall : call.LooksLike other) :
    (s.step call).events = (t.step other).events ∧
      (s.step call).value.1.LooksLike (t.step other).value.1 ∧
      (s.step call).value.2.LooksLike (t.step other).value.2 := by
  cases hcall with
  | insert hparams => exact h.step_insert hparams
  | same =>
    cases call with
    | insert p => exact h.step_insert (.refl p)
    | remove keyAlias => exact h.step_remove keyAlias
    | keyInfo keyAlias =>
      obtain ⟨hevents, hreply⟩ := h.keyInfo keyAlias
      refine ⟨?_, h, hreply⟩
      rw [Store.step, Store.step, Logged.events_map, Logged.events_map, hevents]
    | contains keyAlias =>
      obtain ⟨hevents, hvalue⟩ := h.contains keyAlias
      rw [Store.step, Store.step, Logged.events_map, Logged.events_map, Logged.value_map,
        Logged.value_map, hvalue]
      exact ⟨hevents, h, .same _⟩
    | aliases =>
      rw [Store.step, Store.step, h.aliases]
      exact ⟨rfl, h, .same _⟩
    | size =>
      rw [Store.step, Store.step, h.size]
      exact ⟨rfl, h, .same _⟩
    | isEmpty =>
      rw [Store.step, Store.step, h.isEmpty]
      exact ⟨rfl, h, .same _⟩
    | name =>
      rw [Store.step, Store.step, h.name]
      exact ⟨rfl, h, .same _⟩

theorem run (h : s.LooksLike t) {calls others : List Call}
    (hcalls : List.Forall₂ Call.LooksLike calls others) :
    (s.run calls).events = (t.run others).events ∧
      List.Forall₂ Reply.LooksLike (s.run calls).value.2 (t.run others).value.2 := by
  induction hcalls generalizing s t with
  | nil => exact ⟨rfl, .nil⟩
  | @cons call other calls others hcall _ ih =>
    obtain ⟨hevents, hnext, hreply⟩ := h.step hcall
    obtain ⟨hrest, hreplies⟩ := ih hnext
    refine ⟨?_, .cons hreply hreplies⟩
    simp only [Store.run, Logged.events_bind, Logged.events_pure]
    rw [hevents, hrest]

end LooksLike

/-- A store is made under the name and carries out the calls. -/
def session (name : String) (calls : List Call) : Logged (List Reply) := do
  let s ← create name
  let (_, replies) ← s.run calls
  pure replies

/-- Sessions under one name whose inserted parameters look alike have the same log, and the same replies up to the contents of descriptors. -/
theorem session_confined (name : String) {calls others : List Call}
    (h : List.Forall₂ Call.LooksLike calls others) :
    (session name calls).events = (session name others).events ∧
      List.Forall₂ Reply.LooksLike (session name calls).value (session name others).value := by
  obtain ⟨hevents, hreplies⟩ := (LooksLike.create name).run h
  refine ⟨?_, hreplies⟩
  simp only [session, Logged.events_bind, Logged.events_pure]
  rw [hevents]

def plainParams : KeyParams where
  keyAlias := some "k"
  origin := .imported
  purposes := ⟨0x401⟩
  insideSecureHardware := true

def detailedParams : KeyParams :=
  { plainParams with
    keySize := 4096
    validityStart := some .epoch
    originationEnd := some .earliest
    consumptionEnd := some .epoch
    encryptionPaddings := some []
    signaturePaddings := some ["PSS"]
    digests := some ["SHA-256", "SHA-256"]
    blockModes := some ["GCM"]
    authenticationRequired := true
    authenticationValidity := 30
    authenticationInSecureHardware := true }

/-- Calls that store the parameters, look at them and remove them twice. -/
def visit (p : KeyParams) : List Call :=
  [.insert p, .keyInfo "k", .contains "k", .contains "l", .aliases, .size, .isEmpty, .insert {},
    .remove "k", .remove "k", .keyInfo "k", .isEmpty]

theorem looksLike_visit :
    List.Forall₂ Call.LooksLike (visit plainParams) (visit detailedParams) := by
  refine .cons (.insert ⟨rfl, rfl, rfl, rfl⟩) ?_
  exact List.forall₂_same.mpr fun call _ => .same call

theorem session_visit_confined :
    (session "store" (visit plainParams)).events =
        (session "store" (visit detailedParams)).events ∧
      List.Forall₂ Reply.LooksLike (session "store" (visit plainParams)).value
        (session "store" (visit detailedParams)).value :=
  session_confined "store" looksLike_visit

end Store

end HardwareKeys

import HardwareKeys.Proofs.Json.Record
import HardwareKeys.Proofs.Json.Stability

/-!
# Layouts of objects

An object is read for its entries: in any order, with blanks between the tokens, with the characters of a key escaped or not, and with entries of unknown keys in between. Its values are those its entries assign, with defaults for the rest.
-/

namespace HardwareKeys.Json.Record

variable {R : Record}

theorem takes_nextEntry (first : Bool) : Takes (nextEntry first) := by
  intro s more rest h added _
  unfold nextEntry at h
  split at h
  · cases h
  · next hs =>
    cases h
    simp [nextEntry, skipBlanks_append_of_cons hs]
  · next c tail hc hs =>
    have hs := skipBlanks_append_of_cons hs added
    split at h
    · next hfirst =>
      split at h
      · next hquote =>
        cases h
        simp [nextEntry, hs, hfirst, hquote]
      · cases h
    · next hfirst =>
      split at h
      · next hcomma =>
        split at h
        · cases h
        · next hkey =>
          cases h
          simp [nextEntry, hs, hfirst, hcomma, skipBlanks_append_of_cons hkey]
        · cases h
        · cases h
      · cases h

section Stable

variable (hcodec : ∀ field, (R.codec field).read.Stable)
include hcodec

theorem takes_readEntry (draft : R.Draft) : Takes (readEntry draft) := by
  intro s next rest h more hmore
  obtain ⟨⟨key, afterKey⟩, hkey, h⟩ := bind_eq_ok_iff.mp h
  refine bind_eq_ok_iff.mpr ⟨_, takes_readChars hkey hmore, ?_⟩
  dsimp only at h ⊢
  split at h
  · obtain ⟨afterColon, hcolon, h⟩ := bind_eq_ok_iff.mp h
    obtain ⟨afterValue, hvalue, h⟩ := bind_eq_ok_iff.mp h
    cases h
    refine bind_eq_ok_iff.mpr ⟨_, passes_expectColon hcolon hmore, ?_⟩
    exact bind_eq_ok_iff.mpr ⟨_, passes_skipFrom [] hvalue hmore, rfl⟩
  · next field _ =>
    split at h
    · cases h
    · next hdraft =>
      obtain ⟨afterColon, hcolon, h⟩ := bind_eq_ok_iff.mp h
      obtain ⟨⟨value, afterValue⟩, hvalue, h⟩ := bind_eq_ok_iff.mp h
      cases h
      rw [if_neg hdraft]
      refine bind_eq_ok_iff.mpr ⟨_, passes_expectColon hcolon hmore, ?_⟩
      exact bind_eq_ok_iff.mpr ⟨_, (hcodec field).takes hvalue hmore, rfl⟩

theorem takes_readEntries (draft : R.Draft) (first : Bool) : Takes (readEntries draft first) := by
  intro s last rest h more hmore
  fun_induction readEntries draft first s with
  | case1 => cases h
  | case2 _ first _ _ hnext =>
    cases h
    exact readEntries_of_close (takes_nextEntry first hnext hmore)
  | case3 => cases h
  | case4 draft first _ _ hnext _ _ hentry ih =>
    exact readEntries_of_entry (takes_nextEntry first hnext hmore)
      (takes_readEntry hcodec draft hentry hmore) (ih h)

theorem takes_readObject : Takes R.readObject := by
  intro s full rest h more hmore
  obtain ⟨⟨draft, tail⟩, hentries, h⟩ := bind_eq_ok_iff.mp h
  obtain ⟨full, hfull, h⟩ := bind_eq_ok_iff.mp h
  cases h
  refine bind_eq_ok_iff.mpr ⟨_, takes_readEntries hcodec .empty true hentries hmore, ?_⟩
  exact bind_eq_ok_iff.mpr ⟨full, hfull, rfl⟩

omit hcodec in
theorem passes_closeArray : Passes closeArray := by
  intro s rest h more _
  unfold closeArray at h ⊢
  split at h
  · cases h
  · next hs =>
    cases h
    rw [skipBlanks_append_of_cons hs]
    rfl
  · split at h <;> cases h
  · cases h

theorem takes_readPositions (draft : R.Draft) (first : Bool) (fields : List R.Field) :
    Takes (readPositions draft first fields) := by
  induction fields generalizing draft first with
  | nil =>
    intro s last rest h more hmore
    obtain ⟨tail, hclose, h⟩ := bind_eq_ok_iff.mp h
    cases h
    exact bind_eq_ok_iff.mpr ⟨_, passes_closeArray hclose hmore, rfl⟩
  | cons field fields ih =>
    intro s last rest h more hmore
    obtain ⟨⟨found, tail⟩, hnext, h⟩ := bind_eq_ok_iff.mp h
    refine bind_eq_ok_iff.mpr ⟨_, takes_nextItem first hnext hmore, ?_⟩
    cases found with
    | false =>
      cases h
      rfl
    | true =>
      obtain ⟨⟨value, afterValue⟩, hvalue, h⟩ := bind_eq_ok_iff.mp h
      exact bind_eq_ok_iff.mpr ⟨_, (hcodec field).takes hvalue hmore, ih _ _ h hmore⟩

theorem takes_readArray : Takes R.readArray := by
  intro s full rest h more hmore
  obtain ⟨⟨draft, tail⟩, hpositions, h⟩ := bind_eq_ok_iff.mp h
  obtain ⟨full, hfull, h⟩ := bind_eq_ok_iff.mp h
  cases h
  have hpositions := takes_readPositions hcodec .empty true R.fields hpositions hmore
  refine bind_eq_ok_iff.mpr ⟨_, hpositions, ?_⟩
  exact bind_eq_ok_iff.mpr ⟨full, hfull, rfl⟩

theorem stable_reader : R.reader.Stable where
  skips blanks s := by simp only [reader, blanks.skipBlanks_append]
  takes := by
    intro s full rest h more hmore
    simp only [reader] at h ⊢
    split at h
    · next hs =>
      rw [skipBlanks_append_of_cons hs]
      exact takes_readObject hcodec h hmore
    · next hs =>
      rw [skipBlanks_append_of_cons hs]
      exact takes_readArray hcodec h hmore
    · cases h

end Stable

/-- An entry of an object. The key of a field stands before any text that the field's codec reads; a key that names no field stands before any value at all. -/
inductive Entry (R : Record) where
  | known (field : R.Field) (value : R.Value field) (m : Member)
      (spells : SpellsChars m.key (R.key field).toList)
      (reads : (R.codec field).readAll m.item.value = .ok value)
  | unknown (key : List Char) (m : Member) (spells : SpellsChars m.key key)
      (names : ∀ field, (R.key field).toList ≠ key) (isValue : IsValue m.item.value)

namespace Entry

def member : Entry R → Member
  | known _ _ m _ _ => m
  | unknown _ m _ _ _ => m

def assignment? : Entry R → Option R.Assignment
  | known field value _ _ _ => some ⟨field, value⟩
  | unknown _ _ _ _ _ => none

end Entry

def assignments (entries : List R.Entry) : List R.Assignment := entries.filterMap Entry.assignment?

/-- A value is read the same inside an entry as on its own. -/
theorem run_item {α : Type} {c : Codec α} (hcodec : c.read.Stable) {item : Item} {a : α}
    (h : c.readAll item.value = .ok a) {rest : List Char} (hrest : EndsNumber rest) :
    ∃ blanks : Blanks, c.read.run (item.text ++ rest) = .ok (a, blanks.text ++ rest) := by
  obtain ⟨⟨a, tail⟩, hrun, h⟩ := bind_eq_ok_iff.mp h
  obtain ⟨⟨⟩, hend, h⟩ := bind_eq_ok_iff.mp h
  cases h
  have hblank : ∀ c ∈ tail ++ item.after.text, isBlank c = true := by
    intro c hc
    rcases List.mem_append.mp hc with hc | hc
    · exact expectEnd_eq_ok_iff.mp hend c hc
    · exact item.after.blank c hc
  refine ⟨⟨_, hblank⟩, ?_⟩
  rw [Item.text, List.append_assoc, List.append_assoc, hcodec.skips,
    hcodec.takes hrun (item.after.endsNumber_append hrest), List.append_assoc]

theorem ofKey?_eq_none {key : List Char} (h : ∀ field, (R.key field).toList ≠ key) :
    R.ofKey? key = none :=
  List.find?_eq_none.mpr fun field _ => by simpa using h field

theorem makes_entry (hkeys : Function.Injective R.key)
    (hcodec : ∀ field, (R.codec field).read.Stable) (e : R.Entry) :
    Makes e.member e.assignment? := by
  intro draft rest hdraft hrest
  cases e with
  | known field value m spells reads =>
    obtain ⟨blanks, hrun⟩ := run_item (hcodec field) reads hrest
    have hnone : draft field = none := hdraft ⟨field, value⟩ rfl
    refine ⟨blanks, ?_⟩
    simp [readEntry, Entry.member, Member.body, spells.readChars_append, ofKey?_key hkeys, hnone,
      expectColon_append, hrun, Entry.assignment?, Draft.assign, bind, Except.bind, pure,
      Except.pure]
  | unknown key m spells names isValue =>
    refine ⟨m.item.after, ?_⟩
    simp [readEntry, Entry.member, Member.body, spells.readChars_append, ofKey?_eq_none names,
      expectColon_append, skipValue_item isValue hrest, Entry.assignment?, Draft.assign, bind,
      Except.bind, pure, Except.pure]

/-- An object is read for the assignments of its entries. -/
theorem run_entries (hkeys : Function.Injective R.key)
    (hcodec : ∀ field, (R.codec field).read.Stable) {entries : List R.Entry} {full : R.Full}
    (hnodup : (assignedFields (assignments entries)).Nodup)
    (hfull : Describes (assignments entries) full) (rest : List Char) :
    R.reader.run (writeObject (entries.map fun e => e.member.text) ++ rest) = .ok (full, rest) :=
  run_writeObject (fun e _ => makes_entry hkeys hcodec e) hnodup hfull rest

/-! ### What assignments describe -/

theorem Describes.of_perm {assignments others : List R.Assignment} {full : R.Full}
    (h : Describes assignments full) (hperm : others.Perm assignments) :
    Describes others full where
  assigned a ha := h.assigned a (hperm.mem_iff.mp ha)
  absent field hfield := h.absent field fun hmem =>
    hfield ((hperm.map Sigma.fst).mem_iff.mpr hmem)

theorem exists_describes {assignments : List R.Assignment}
    (hnodup : (assignedFields assignments).Nodup)
    (habsent : ∀ field ∉ assignedFields assignments, (R.whenAbsent field).isSome) :
    ∃ full, Describes assignments full := by
  have hvalue : ∀ field, ∃ value,
      ((Draft.empty : R.Draft).assign assignments field).or (R.whenAbsent field) = some value := by
    intro field
    by_cases hfield : field ∈ assignedFields assignments
    · obtain ⟨a, ha, rfl⟩ := List.mem_map.mp hfield
      exact ⟨a.2, by rw [Draft.assign_of_mem _ hnodup ha, Option.some_or]⟩
    · obtain ⟨value, hvalue⟩ := Option.isSome_iff_exists.mp (habsent field hfield)
      refine ⟨value, ?_⟩
      rw [Draft.assign_of_notMem _ hfield, hvalue, Draft.empty, Option.none_or]
  choose full hfull using hvalue
  refine ⟨full, ⟨fun a ha => ?_, fun field hfield => ?_⟩⟩
  · have hvalue := hfull a.1
    rw [Draft.assign_of_mem _ hnodup ha, Option.some_or] at hvalue
    exact (Option.some.inj hvalue).symm
  · have hvalue := hfull field
    rwa [Draft.assign_of_notMem _ hfield, Draft.empty, Option.none_or] at hvalue

end HardwareKeys.Json.Record

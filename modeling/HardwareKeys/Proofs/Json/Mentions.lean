import HardwareKeys.Proofs.Json.Decisive
import HardwareKeys.Proofs.Json.Layout

/-!
# Complete objects read as records

A complete object is read entry by entry, whether it describes a record or not. An entry of an unknown key leaves no trace, so what is read, result or error, depends on the fields that are mentioned, in their order, and on the texts of their values.
-/

namespace HardwareKeys.Json.Record

variable {R : Record}

/-- A field whose key occurs, with the text of the value under it. -/
abbrev Mention (R : Record) : Type := R.Field × List Char

/-- The draft with the value of one more field. A field is mentioned once. -/
def Draft.mention (draft : R.Draft) (m : R.Mention) : Except ReadError R.Draft :=
  if (draft m.1).isSome then .error (.duplicateField (R.key m.1))
  else draft.set m.1 <$> (R.codec m.1).readAll m.2

/-- A draft with nothing for some fields has nothing for them after another one is set. -/
theorem Draft.set_eq_none {draft : R.Draft} {field : R.Field} {fields : List R.Field}
    (hnotMem : field ∉ fields) (hnew : ∀ other ∈ fields, draft other = none)
    (value : R.Value field) : ∀ other ∈ fields, draft.set field value other = none := by
  intro other hother
  have hne : other ≠ field := fun heq => hnotMem (heq ▸ hother)
  rw [set_of_ne _ _ hne, hnew other hother]

theorem Draft.mention_eq_ok_iff {draft next : R.Draft} {m : R.Mention} :
    draft.mention m = .ok next ↔ draft m.1 = none ∧
      ∃ value, (R.codec m.1).readAll m.2 = .ok value ∧ draft.set m.1 value = next := by
  rw [Draft.mention, ← map_eq_ok_iff]
  cases draft m.1 <;> simp

/-- The draft after one more member: unchanged, if its key is unknown. -/
def Draft.pass (draft : R.Draft) (m : Member) : Except ReadError R.Draft := do
  let name ← bodyChars m.key
  match R.ofKey? name with
  | none => pure draft
  | some field => draft.mention (field, m.item.value)

/-- The values of the draft, with defaults for the fields that are not mentioned. -/
def Draft.close (draft : R.Draft) : Except ReadError R.Full :=
  (draft.complete R.whenAbsent).mapError fun field => .missingField (R.key field)

/-- The member is one by the grammar. -/
structure IsComplete (m : Member) : Prop where
  key : IsBody m.key
  value : IsValue m.item.value

theorem readEntries_of_next {draft : R.Draft} {first : Bool} {s entry : List Char}
    (h : nextEntry first s = .ok (true, entry)) :
    readEntries draft first s = readEntry draft entry >>= fun (next, tail) =>
      readEntries next false tail := by
  rw [readEntries]
  split
  · simp_all
  · simp_all
  · next heq =>
    obtain rfl : entry = _ := by simpa [h] using heq
    split <;> next hentry => rw [hentry]; rfl

section Decisive

variable (hcodec : ∀ field, (R.codec field).read.Decisive)
include hcodec

theorem readEntry_body {m : Member} (hm : IsComplete m) (draft : R.Draft) {rest : List Char}
    (hrest : EndsNumber rest) :
    readEntry draft (m.body ++ rest) =
      (fun next => (next, m.item.after.text ++ rest)) <$> draft.pass m := by
  have hchars := hm.key.readChars_append (m.afterKey.text ++ ':' :: (m.item.text ++ rest))
  unfold readEntry Draft.pass
  simp only [Member.body, List.append_assoc, List.cons_append, hchars]
  cases bodyChars m.key with
  | error e => rfl
  | ok name =>
    simp only [Functor.map, Except.map, bind, Except.bind]
    cases R.ofKey? name with
    | none =>
      simp only [expectColon_append, skipValue_item hm.value hrest]
      rfl
    | some field =>
      simp only [Draft.mention]
      split
      · rfl
      · simp only [expectColon_append, (hcodec field).run_item hm.value hrest]
        cases (R.codec field).readAll m.item.value <;> rfl

theorem readEntries_complete {members : List Member} (hmembers : ∀ m ∈ members, IsComplete m)
    (draft : R.Draft) (blanks : Blanks) (rest : List Char) :
    readEntries draft false (blanks.text ++
        ((members.map Member.text).flatMap (',' :: ·) ++ '\x7d' :: rest)) =
      (fun last => (last, rest)) <$> members.foldlM Draft.pass draft := by
  induction members generalizing draft blanks with
  | nil =>
    apply readEntries_of_close
    rw [nextEntry_blanks]
    exact nextEntry_close false rest
  | cons m members ih =>
    obtain ⟨hm, hmembers⟩ := List.forall_mem_cons.mp hmembers
    have hends := Reader.endsNumber_flatMap_comma (members.map Member.text) rest
      (show continuesNumber '\x7d' = false by decide)
    have hnext := nextEntry_commaMember m
      ((members.map Member.text).flatMap (',' :: ·) ++ '\x7d' :: rest)
    rw [List.map_cons, List.flatMap_cons, List.append_assoc, List.cons_append,
      readEntries_of_next (by rw [nextEntry_blanks, hnext]), readEntry_body hcodec hm draft hends,
      List.foldlM_cons]
    cases draft.pass m with
    | error e => rfl
    | ok next => exact ih hmembers next m.item.after

/-- A complete object is read member by member, to its result or to its error. -/
theorem settles_object {members : List Member} {s : List Char} (hs : SpellsObject members s)
    (hmembers : ∀ m ∈ members, IsComplete m) :
    R.reader.Settles s (members.foldlM Draft.pass .empty >>= Draft.close) := by
  intro rest _
  have hobject : ∀ {t : List Char}, R.reader.run ('\x7b' :: t) = R.readObject t := rfl
  have hentries : ∀ {t : List Char}, readEntries (R := R) .empty true t =
      (fun last => (last, rest)) <$> members.foldlM Draft.pass .empty →
      R.readObject t = (fun full => (full, rest)) <$>
        (members.foldlM Draft.pass .empty >>= Draft.close) := by
    intro t ht
    rw [readObject, ht]
    cases members.foldlM Draft.pass (Draft.empty : R.Draft) with
    | error e => rfl
    | ok last =>
      simp only [Functor.map, Except.map, bind, Except.bind, Draft.close]
      cases (last.complete R.whenAbsent) <;> rfl
  cases hs with
  | empty blanks =>
    simp only [List.cons_append, List.append_assoc, List.nil_append]
    rw [hobject]
    apply hentries
    apply readEntries_of_close
    rw [nextEntry_blanks]
    exact nextEntry_close true rest
  | cons m members =>
    obtain ⟨hm, hmembers⟩ := List.forall_mem_cons.mp hmembers
    have hends := Reader.endsNumber_flatMap_comma (members.map Member.text) rest
      (show continuesNumber '\x7d' = false by decide)
    simp only [writeObject, List.map_cons, intercalate_comma_cons, List.cons_append,
      List.append_assoc, List.nil_append]
    rw [hobject]
    apply hentries
    rw [readEntries_of_next (nextEntry_member m _), readEntry_body hcodec hm .empty hends,
      List.foldlM_cons]
    cases (Draft.empty : R.Draft).pass m with
    | error e => rfl
    | ok next => exact readEntries_complete hcodec hmembers next m.item.after rest

end Decisive

/-! ### Arrays -/

/-- The draft with the texts read as values of the fields, one after the other. Fields may be left over, but no texts. -/
def Draft.place (draft : R.Draft) : List R.Field → List (List Char) → Except ReadError R.Draft
  | [], [] | _ :: _, [] => .ok draft
  | [], _ :: _ => .error .trailingCharacters
  | field :: fields, text :: texts => do
    let value ← (R.codec field).readAll text
    Draft.place (draft.set field value) fields texts

/-- The values of the draft, with defaults for the fields that the array ends before. -/
def Draft.cutOff (draft : R.Draft) : Except ReadError R.Full :=
  (draft.complete R.whenCutOff).mapError fun field =>
    .invalidLength (R.fields.idxOf field) R.name R.fields.length

theorem closeArray_blanks (blanks : Blanks) (s : List Char) :
    closeArray (blanks.text ++ s) = closeArray s := by
  rw [closeArray, blanks.skipBlanks_append, closeArray]

theorem closeArray_commaItem {item : Item} (h : StartsItem item.value) (rest : List Char) :
    closeArray (',' :: (item.text ++ rest)) = .error .trailingCharacters := by
  obtain ⟨c, tail, hvalue, hblank, hc⟩ := h
  simp only [closeArray, Item.text, hvalue, List.append_assoc,
    skipBlanks_cons (show isBlank ',' = false by decide), item.before.skipBlanks_append,
    List.cons_append, skipBlanks_cons hblank]
  split
  · next heq => exact absurd (List.cons.inj heq).1 hc
  · rfl

theorem readPositions_of_next {draft : R.Draft} {first : Bool} {field : R.Field}
    {fields : List R.Field} {s item : List Char} (h : nextItem first s = .ok (true, item)) :
    readPositions draft first (field :: fields) s =
      (R.codec field).read.run item >>= fun (value, rest) =>
        readPositions (draft.set field value) false fields rest := by
  simp only [readPositions, h]
  rfl

theorem readPositions_of_close {draft : R.Draft} {first : Bool} {field : R.Field}
    {fields : List R.Field} {s rest : List Char} (h : nextItem first s = .ok (false, rest)) :
    readPositions draft first (field :: fields) s = .ok (draft, rest) := by
  simp only [readPositions, h]
  rfl

theorem run_reader_of_ne {s tail : List Char} {c : Char} (hs : skipBlanks s = c :: tail)
    (hobject : c ≠ '\x7b') (harray : c ≠ '[') :
    R.reader.run s = .error (wrongType (.record R.name) (c :: tail)) := by
  simp only [reader, hs]
  split
  · next heq => exact absurd (List.cons.inj heq).1 hobject
  · next heq => exact absurd (List.cons.inj heq).1 harray
  · rfl

section Decisive

variable (hcodec : ∀ field, (R.codec field).read.Decisive)
include hcodec

theorem readPositions_complete {items : List Item} (hitems : ∀ item ∈ items, IsValue item.value)
    (draft : R.Draft) (fields : List R.Field) (blanks : Blanks) (rest : List Char) :
    readPositions draft false fields (blanks.text ++
        ((items.map Item.text).flatMap (',' :: ·) ++ ']' :: rest)) =
      (fun last => (last, rest)) <$> draft.place fields (items.map Item.value) := by
  induction fields generalizing draft items blanks with
  | nil =>
    rw [readPositions, closeArray_blanks]
    cases items with
    | nil => rfl
    | cons item items =>
      obtain ⟨hitem, -⟩ := List.forall_mem_cons.mp hitems
      rw [List.map_cons, List.flatMap_cons, List.append_assoc, List.cons_append,
        closeArray_commaItem hitem.startsItem]
      rfl
  | cons field fields ih =>
    cases items with
    | nil =>
      apply readPositions_of_close
      rw [Reader.nextItem_blanks]
      exact Reader.nextItem_close false rest
    | cons item items =>
      obtain ⟨hitem, hitems⟩ := List.forall_mem_cons.mp hitems
      have hends := Reader.endsNumber_flatMap_comma (items.map Item.text) rest
        (show continuesNumber ']' = false by decide)
      have hnext := Reader.nextItem_commaItem hitem.startsItem
        ((items.map Item.text).flatMap (',' :: ·) ++ ']' :: rest)
      obtain ⟨x, hx⟩ := (hcodec field).settles hitem
      rw [List.map_cons, List.flatMap_cons, List.append_assoc, List.cons_append,
        readPositions_of_next (by rw [Reader.nextItem_blanks, hnext]),
        hx _ (item.after.endsNumber_append hends), List.map_cons, Draft.place, hx.readAll]
      cases x with
      | error e => rfl
      | ok value => exact ih hitems (draft.set field value) item.after

/-- A complete array is read item by item, to its result or to its error. -/
theorem settles_array (hfields : R.fields ≠ []) {items : List Item} {s : List Char}
    (hs : SpellsArray items s) (hitems : ∀ item ∈ items, IsValue item.value) :
    R.reader.Settles s
      (Draft.place .empty R.fields (items.map Item.value) >>= Draft.cutOff) := by
  intro rest _
  obtain ⟨field, fields, hcons⟩ := List.exists_cons_of_ne_nil hfields
  have harray : ∀ {t : List Char}, R.reader.run ('[' :: t) = R.readArray t := rfl
  have hpositions : ∀ {t : List Char} {x : Except ReadError R.Draft},
      readPositions (R := R) .empty true R.fields t = (fun last => (last, rest)) <$> x →
      R.readArray t = (fun full => (full, rest)) <$> (x >>= Draft.cutOff) := by
    intro t x ht
    rw [readArray, ht]
    cases x with
    | error e => rfl
    | ok last =>
      simp only [Functor.map, Except.map, bind, Except.bind, Draft.cutOff]
      cases (last.complete R.whenCutOff) <;> rfl
  cases hs with
  | empty blanks =>
    simp only [List.cons_append, List.append_assoc, List.nil_append]
    rw [harray]
    apply hpositions
    rw [hcons]
    apply readPositions_of_close
    rw [Reader.nextItem_blanks]
    exact Reader.nextItem_close true rest
  | cons item items =>
    obtain ⟨hitem, hitems⟩ := List.forall_mem_cons.mp hitems
    have hends := Reader.endsNumber_flatMap_comma (items.map Item.text) rest
      (show continuesNumber ']' = false by decide)
    obtain ⟨x, hx⟩ := (hcodec field).settles hitem
    simp only [writeArray, List.map_cons, intercalate_comma_cons, List.cons_append,
      List.append_assoc, List.nil_append]
    rw [harray]
    apply hpositions
    rw [hcons, readPositions_of_next (Reader.nextItem_item hitem.startsItem _),
      hx _ (item.after.endsNumber_append hends), Draft.place, hx.readAll]
    cases x with
    | error e => rfl
    | ok value => exact readPositions_complete hcodec hitems _ fields item.after rest

/-- A record says of every complete value what it is, whatever follows the value. -/
theorem decisive_reader (hfields : R.fields ≠ []) : R.reader.Decisive where
  toStable := stable_reader fun field => (hcodec field).toStable
  settles := by
    intro v hv
    have hvalue := hv
    cases hvalue with
    | emptyArray blanks =>
      exact ⟨_, settles_array hcodec hfields (.empty blanks) (List.forall_mem_nil _)⟩
    | array hitem hitems =>
      exact ⟨_, settles_array hcodec hfields (.cons _ _)
        (List.forall_mem_cons.mpr ⟨hitem, hitems⟩)⟩
    | emptyObject blanks =>
      exact ⟨_, settles_object hcodec (.empty blanks) (List.forall_mem_nil _)⟩
    | object hkey hvalue hkeys hvalues =>
      refine ⟨_, settles_object hcodec (.cons _ _) (List.forall_mem_cons.mpr ⟨⟨hkey, hvalue⟩, ?_⟩)⟩
      exact fun m hm => ⟨hkeys m hm, hvalues m hm⟩
    | boolean value => cases value <;> exact Reader.settles_wrongType hv fun _ => rfl
    | number h =>
      exact Reader.settles_wrongType_number h fun _ _ hc hs =>
        run_reader_of_ne hs (ne_of_startsNumber hc (by decide))
          (ne_of_startsNumber hc (by decide))
    | null | text => exact Reader.settles_wrongType hv fun _ => rfl

end Decisive

end HardwareKeys.Json.Record

import Mathlib.Logic.Function.Basic
import HardwareKeys.Proofs.Json.Positions

/-!
# Places in a text of a record

The text of a record has a place for the value of a field, in a member of an object or at a position of an array. Values in the other places are read without regard to the one in this place. So once some value in it has made a text of the record, any other one is read for itself alone, and replaces that value and nothing else.
-/

namespace HardwareKeys.Json

def Item.put (item : Item) (value : List Char) : Item := { item with value }

def Member.put (m : Member) (value : List Char) : Member := { m with item := m.item.put value }

namespace Record

variable {R : Record}

/-- All of an object or an array but the value of one field. The object has a member with the key of the field, the array as many items before the place as the record has fields before the field. -/
inductive Place (R : Record) (field : R.Field) where
  | member (before after : List NamedMember) (m : Member)
      (spells : SpellsChars m.key (R.key field).toList)
  | position (before after : List Item) (item : Item)
      (index : before.length = R.fields.idxOf field)
      (isValue : ∀ other ∈ before ++ after, IsValue other.value)

namespace Place

variable {field : R.Field}

/-- The text with a value in the place. -/
def fill : R.Place field → List Char → List Char
  | member before after m _, value =>
    writeObject ((before.map NamedMember.member ++
      m.put value :: after.map NamedMember.member).map Member.text)
  | position before after item _ _, value =>
    writeArray ((before ++ item.put value :: after).map Item.text)

/-- What the record comes to with a value in the place. -/
def result : R.Place field → List Char → Except ReadError R.Full
  | member before after _ _, value =>
    (R.mentions before ++ (field, value) :: R.mentions after).foldlM Draft.mention .empty
      >>= Draft.close
  | position before after _ _ _, value =>
    Draft.place .empty R.fields (before.map Item.value ++ value :: after.map Item.value)
      >>= Draft.cutOff

end Place

section Fill

variable {field : R.Field} {value : List Char}

theorem isValue_of_spellsArray {items : List Item} {s : List Char} (h : SpellsArray items s)
    (hitems : ∀ item ∈ items, IsValue item.value) : IsValue s := by
  cases h with
  | empty blanks => exact .emptyArray blanks
  | cons item items =>
    obtain ⟨hitem, hitems⟩ := List.forall_mem_cons.mp hitems
    exact .array hitem hitems

theorem isValue_of_spellsObject {members : List Member} {s : List Char}
    (h : SpellsObject members s) (hmembers : ∀ m ∈ members, IsComplete m) : IsValue s := by
  cases h with
  | empty blanks => exact .emptyObject blanks
  | cons m members =>
    obtain ⟨hm, hmembers⟩ := List.forall_mem_cons.mp hmembers
    exact .object hm.key hm.value (fun other hother => (hmembers other hother).key)
      fun other hother => (hmembers other hother).value

/-- The member of the place with a value in it. -/
def namedPut (m : Member) {name : List Char} (spells : SpellsChars m.key name)
    (hvalue : IsValue value) : NamedMember :=
  ⟨m.put value, name, spells, hvalue⟩

theorem map_member_put (before after : List NamedMember) (m : Member) {name : List Char}
    (spells : SpellsChars m.key name) (hvalue : IsValue value) :
    before.map NamedMember.member ++ m.put value :: after.map NamedMember.member =
      (before ++ namedPut m spells hvalue :: after).map NamedMember.member := by
  rw [List.map_append, List.map_cons]
  rfl

theorem mentions_put (hkeys : Function.Injective R.key) (before after : List NamedMember)
    (m : Member) (spells : SpellsChars m.key (R.key field).toList) (hvalue : IsValue value) :
    R.mentions (before ++ namedPut m spells hvalue :: after) =
      R.mentions before ++ (field, value) :: R.mentions after := by
  have hnamed : (R.ofKey? (namedPut m spells hvalue).name).map (fun field => (field, value)) =
      some (field, value) := by
    change (R.ofKey? (R.key field).toList).map _ = _
    rw [ofKey?_key hkeys]
    rfl
  rw [mentions, List.filterMap_append]
  exact congrArg (R.mentions before ++ ·) (List.filterMap_cons_some hnamed)

theorem isValue_position {before after : List Item} (item : Item)
    (isValue : ∀ other ∈ before ++ after, IsValue other.value) (hvalue : IsValue value) :
    ∀ other ∈ before ++ item.put value :: after, IsValue other.value := by
  intro other hother
  rcases List.mem_append.mp hother with hmem | hmem
  · exact isValue other (List.mem_append_left _ hmem)
  · rcases List.mem_cons.mp hmem with rfl | hmem
    · exact hvalue
    · exact isValue other (List.mem_append_right _ hmem)

namespace Place

variable (place : R.Place field)

theorem isValue_fill (hvalue : IsValue value) : IsValue (place.fill value) := by
  cases place with
  | member before after m spells =>
    rw [fill, map_member_put before after m spells hvalue]
    refine isValue_of_spellsObject (spellsObject_writeObject _) ?_
    rw [List.forall_mem_map]
    exact fun other _ => other.isComplete
  | position before after item _ isValue =>
    exact isValue_of_spellsArray (spellsArray_writeArray _) (isValue_position item isValue hvalue)

theorem exists_fill_eq_cons (value : List Char) :
    ∃ c tail, place.fill value = c :: tail ∧ isBlank c = false ∧ c ≠ 'n' := by
  cases place with
  | member => exact ⟨'\x7b', _, rfl, by decide, by decide⟩
  | position => exact ⟨'[', _, rfl, by decide, by decide⟩

theorem settles_fill {α : Type} {f : R.Full → α} {encode : α → Except WriteError R.Full}
    (hcodec : ∀ field, (R.codec field).read.Decisive) (hkeys : Function.Injective R.key)
    (hfields : R.fields ≠ []) (hvalue : IsValue value) :
    (R.toCodec.via (fun full => .ok (f full)) encode).read.Settles (place.fill value)
      (f <$> place.result value) := by
  cases place with
  | member before after m spells =>
    rw [fill, map_member_put before after m spells hvalue, result,
      ← mentions_put hkeys before after m spells hvalue]
    exact settles_mentions hcodec (spellsObject_writeObject _)
  | position before after item _ isValue =>
    have hsettles : (R.toCodec.via (fun full => .ok (f full)) encode).read.Settles _ _ :=
      settles_positions hcodec hfields (spellsArray_writeArray _)
        (isValue_position item isValue hvalue)
    have hvalues : (before ++ item.put value :: after).map Item.value =
        before.map Item.value ++ value :: after.map Item.value := by
      rw [List.map_append, List.map_cons]
      rfl
    rw [hvalues] at hsettles
    exact hsettles

end Place

end Fill

/-! ### Drafts with another value -/

namespace Draft

variable {draft : R.Draft} {field : R.Field}

theorem set_set (draft : R.Draft) (field : R.Field) (value other : R.Value field) :
    (draft.set field value).set field other = draft.set field other := by
  funext any
  by_cases h : any = field
  · subst h
    rw [set_self, set_self]
  · rw [set_of_ne _ _ h, set_of_ne _ _ h, set_of_ne _ _ h]

theorem set_comm (draft : R.Draft) {field other : R.Field} (h : field ≠ other)
    (value : R.Value field) (otherValue : R.Value other) :
    (draft.set field value).set other otherValue =
      (draft.set other otherValue).set field value := by
  funext any
  by_cases hfield : any = field
  · subst hfield
    rw [set_of_ne _ _ h, set_self, set_self]
  · by_cases hother : any = other
    · subst hother
      rw [set_self, set_of_ne _ _ hfield, set_self]
    · rw [set_of_ne _ _ hother, set_of_ne _ _ hfield, set_of_ne _ _ hfield, set_of_ne _ _ hother]

/-- Mentions of other fields are passed whatever value the field has. -/
theorem foldlM_mention_set {mentions : List R.Mention} {last : R.Draft} {value : R.Value field}
    (h : mentions.foldlM mention (draft.set field value) = .ok last) (other : R.Value field) :
    mentions.foldlM mention (draft.set field other) = .ok (last.set field other) := by
  induction mentions generalizing draft with
  | nil =>
    cases h
    rw [set_set]
    rfl
  | cons m mentions ih =>
    rw [List.foldlM_cons] at h ⊢
    obtain ⟨next, hnext, h⟩ := bind_eq_ok_iff.mp h
    obtain ⟨hnew, read, hread, rfl⟩ := mention_eq_ok_iff.mp hnext
    have hne : m.1 ≠ field := by
      intro heq
      rw [heq, set_self] at hnew
      cases hnew
    rw [set_of_ne _ _ hne] at hnew
    have hmention : (draft.set field other).mention m =
        .ok ((draft.set m.1 read).set field other) := by
      refine mention_eq_ok_iff.mpr ⟨by rw [set_of_ne _ _ hne, hnew], read, hread, ?_⟩
      exact set_comm draft hne.symm other read
    rw [set_comm draft hne.symm] at h
    exact bind_eq_ok_iff.mpr ⟨_, hmention, ih h⟩

theorem complete_set {default : R.Draft} {full : R.Full} (h : draft.complete default = .ok full)
    (value : R.Value field) :
    (draft.set field value).complete default = .ok (Function.update full field value) := by
  apply complete_of_full
  intro other
  by_cases hother : other = field
  · subst hother
    rw [set_self, Option.some_or, Function.update_self]
  · rw [set_of_ne _ _ hother, Function.update_of_ne hother]
    exact or_eq_of_complete h other

theorem close_set {full : R.Full} (h : draft.close = .ok full) (value : R.Value field) :
    (draft.set field value).close = .ok (Function.update full field value) :=
  mapError_eq_ok_iff.mpr (complete_set (mapError_eq_ok_iff.mp h) value)

theorem cutOff_set {full : R.Full} (h : draft.cutOff = .ok full) (value : R.Value field) :
    (draft.set field value).cutOff = .ok (Function.update full field value) :=
  mapError_eq_ok_iff.mpr (complete_set (mapError_eq_ok_iff.mp h) value)

end Draft

section Exchange

variable {field : R.Field} {value : List Char} {base : R.Full}

/-- Where mentions have led to a full record, another value for one of them is read for itself. -/
theorem foldlM_mention_eq_ok_iff {finish : R.Draft → Except ReadError R.Full}
    (hfinish : ∀ {draft : R.Draft} {full : R.Full}, finish draft = .ok full →
      ∀ x : R.Value field, finish (draft.set field x) = .ok (Function.update full field x))
    {front back : List R.Mention}
    (hbase : ((front ++ (field, value) :: back).foldlM Draft.mention .empty >>= finish) = .ok base)
    {other : List Char} {full : R.Full} :
    ((front ++ (field, other) :: back).foldlM Draft.mention .empty >>= finish) = .ok full ↔
      ∃ x, (R.codec field).readAll other = .ok x ∧ Function.update base field x = full := by
  obtain ⟨last, hfold, hlast⟩ := bind_eq_ok_iff.mp hbase
  rw [List.foldlM_append] at hfold
  obtain ⟨draft, hfront, hfold⟩ := bind_eq_ok_iff.mp hfold
  rw [List.foldlM_cons] at hfold
  obtain ⟨next, hnext, hback⟩ := bind_eq_ok_iff.mp hfold
  obtain ⟨hnew, x, -, rfl⟩ := Draft.mention_eq_ok_iff.mp hnext
  have hresult : ∀ {y}, (R.codec field).readAll other = .ok y →
      ((front ++ (field, other) :: back).foldlM Draft.mention .empty >>= finish) =
        .ok (Function.update base field y) := by
    intro y hy
    have hmention : draft.mention (field, other) = .ok (draft.set field y) :=
      Draft.mention_eq_ok_iff.mpr ⟨hnew, y, hy, rfl⟩
    refine bind_eq_ok_iff.mpr ⟨last.set field y, ?_, hfinish hlast y⟩
    rw [List.foldlM_append]
    refine bind_eq_ok_iff.mpr ⟨draft, hfront, ?_⟩
    rw [List.foldlM_cons]
    exact bind_eq_ok_iff.mpr ⟨_, hmention, Draft.foldlM_mention_set hback y⟩
  constructor
  · intro h
    obtain ⟨last', hfold', -⟩ := bind_eq_ok_iff.mp h
    rw [List.foldlM_append] at hfold'
    obtain ⟨draft', -, hfold'⟩ := bind_eq_ok_iff.mp hfold'
    rw [List.foldlM_cons] at hfold'
    obtain ⟨next', hnext', -⟩ := bind_eq_ok_iff.mp hfold'
    obtain ⟨-, y, hy, -⟩ := Draft.mention_eq_ok_iff.mp hnext'
    exact ⟨y, hy, Except.ok.inj ((hresult hy).symm.trans h)⟩
  · rintro ⟨y, hy, rfl⟩
    exact hresult hy

theorem length_le_of_place {fields : List R.Field} {texts : List (List Char)}
    {draft last : R.Draft} (h : draft.place fields texts = .ok last) :
    texts.length ≤ fields.length := by
  induction fields generalizing draft texts with
  | nil =>
    cases texts with
    | nil => exact Nat.le_refl _
    | cons => cases h
  | cons field fields ih =>
    cases texts with
    | nil => exact Nat.zero_le _
    | cons text texts =>
      obtain ⟨value, -, h⟩ := bind_eq_ok_iff.mp h
      exact Nat.succ_le_succ (ih h)

/-- The values of an array go to the fields before the place, to its field and to those after it. -/
theorem zip_fields {before after : List (List Char)}
    (hindex : before.length = R.fields.idxOf field) (value : List Char) :
    R.fields.zip (before ++ value :: after) =
      (R.fields.take before.length).zip before ++
        (field, value) :: (R.fields.drop (before.length + 1)).zip after := by
  have hlt : before.length < R.fields.length := by
    rw [hindex]
    exact List.idxOf_lt_length_of_mem (R.mem_fields field)
  have hfield : R.fields[before.length] = field := by
    simp only [hindex, List.getElem_idxOf]
  have hsplit : R.fields =
      R.fields.take before.length ++ field :: R.fields.drop (before.length + 1) := by
    conv_lhs => rw [← List.take_append_drop before.length R.fields,
      List.drop_eq_getElem_cons hlt, hfield]
  have hlength : (R.fields.take before.length).length = before.length := by
    rw [List.length_take]
    exact Nat.min_eq_left hlt.le
  conv_lhs => rw [hsplit]
  rw [List.zip_append hlength, List.zip_cons_cons]

/-- Once a value in the place has made a full record, another one is read for itself. -/
theorem Place.result_eq_ok_iff (hnodup : R.fields.Nodup) {place : R.Place field}
    (hbase : place.result value = .ok base) {other : List Char} {full : R.Full} :
    place.result other = .ok full ↔
      ∃ x, (R.codec field).readAll other = .ok x ∧ Function.update base field x = full := by
  cases place with
  | member before after m spells => exact foldlM_mention_eq_ok_iff Draft.close_set hbase
  | position before after item index isValue =>
    obtain ⟨last, hlast, -⟩ := bind_eq_ok_iff.mp hbase
    have hlength := length_le_of_place hlast
    rw [List.length_append, List.length_cons, List.length_map, List.length_map] at hlength
    have hplace : ∀ any, (position before after item index isValue : R.Place field).result any =
        ((R.fields.take (before.map Item.value).length).zip (before.map Item.value) ++
          (field, any) :: (R.fields.drop ((before.map Item.value).length + 1)).zip
            (after.map Item.value)).foldlM Draft.mention .empty >>= Draft.cutOff := by
      intro any
      rw [result, place_empty hnodup (by simpa using hlength), zip_fields (by simpa using index)]
    rw [hplace] at hbase ⊢
    exact foldlM_mention_eq_ok_iff Draft.cutOff_set hbase

end Exchange

end Record

end HardwareKeys.Json

import HardwareKeys.Proofs.Json.Positions
import HardwareKeys.Proofs.KeyParams.Faults

/-!
# Parameters as arrays

Fifteen values are read alike from an array and from an object of all keys, to the same parameters or the same error. They part in what they do about absence: an object may leave out every optional field, an array that ends early only the three instants, and nothing after them.
-/

namespace HardwareKeys

open Json Record

/-- An offset is the same in an array and in an object, and so is the instant it names. -/
theorem Instant.readAll_pairs {members : List NamedMember} {items : List Item} {array object : Item}
    (harray : SpellsArray items array.value)
    (hobject : SpellsObject (members.map NamedMember.member) object.value)
    (hpairs : EpochOffset.record.Pairs members items) :
    Instant.codec.orNull.readAll array.text = Instant.codec.orNull.readAll object.text := by
  obtain ⟨x, hx, hsame⟩ : ∃ x, EpochOffset.codec.read.Settles array.value x ∧
      EpochOffset.codec.read.Settles object.value x :=
    exists_settles_pairs (R := EpochOffset.record) EpochOffset.decisive_field
      EpochOffset.key_injective EpochOffset.nodup_fields nofun hpairs harray hobject
  obtain ⟨left, hleft⟩ := harray.eq_cons
  obtain ⟨right, hright⟩ := hobject.eq_cons
  rw [readAll_of_settles hx ⟨'[', left, hleft, by decide, by decide⟩,
    readAll_of_settles hsame ⟨'\x7b', right, hright, by decide, by decide⟩]

namespace KeyParams

theorem ofJson_pairs {members : List NamedMember} {items : List Item} {array object : Item}
    (harray : SpellsArray items array.value)
    (hobject : SpellsObject (members.map NamedMember.member) object.value)
    (hpairs : record.Pairs members items) :
    ofJson (String.ofList array.text) = ofJson (String.ofList object.text) := by
  obtain ⟨x, hx, hsame⟩ : ∃ x, codec.read.Settles array.value x ∧
      codec.read.Settles object.value x :=
    exists_settles_pairs (R := record) decisive_field key_injective nodup_fields nofun hpairs harray
      hobject
  rw [ofJson_ofList, ofJson_ofList, hx.readAll_item stable_codec, hsame.readAll_item stable_codec]

/-- How many values an array is said to have that ends after `n`: the instants are not missed. -/
def namedLength (n : Nat) : Nat := if 4 ≤ n ∧ n ≤ 6 then 7 else n

theorem firstCutOff?_eq : ∀ n < 15, ∃ field, record.firstCutOff? n = some field ∧
    record.fields.idxOf field = namedLength n := by
  decide

theorem ofJson_shortArray {items : List Item} {array : Item}
    (harray : SpellsArray items array.value) (hlength : items.length < 15)
    (hitems : ∀ m ∈ Field.all.zip (items.map Item.value),
      IsValue m.2 ∧ ∃ value, m.1.codec.readAll m.2 = .ok value) :
    ofJson (String.ofList array.text) =
      .error (.invalidLength (namedLength items.length) "KeyDescriptorParams" 15) := by
  obtain ⟨field, hfield, hidx⟩ := firstCutOff?_eq items.length hlength
  have hshort : (items.map Item.value).length ≤ Field.all.length := by
    rw [List.length_map]
    exact Nat.le_of_lt hlength
  have hvalues : ∀ item ∈ items, IsValue item.value := by
    intro item hitem
    have hsnd := List.map_snd_zip hshort
    have hmem : item.value ∈ (Field.all.zip (items.map Item.value)).map Prod.snd := by
      rw [hsnd]
      exact List.mem_map_of_mem hitem
    obtain ⟨m, hm, heq⟩ := List.mem_map.mp hmem
    exact heq ▸ (hitems m hm).1
  have hread : codec.readAll array.text = _ :=
    readAll_array (R := record) decisive_field nofun harray hvalues
  rw [← List.length_map Item.value] at hfield
  rw [ofJson_ofList, hread, place_cutOff nodup_fields hshort (fun m hm => (hitems m hm).2) hfield,
    hidx]
  rfl

theorem exists_ofJson_object {members : List NamedMember} {object : Item}
    (hobject : SpellsObject (members.map NamedMember.member) object.value)
    (hfaultless : Faultless (record.mentions members))
    (hrequired : ∀ field ∈ Field.required, field ∈ (record.mentions members).map Prod.fst) :
    ∃ p, ofJson (String.ofList object.text) = .ok p ∧
      ∀ field ∉ (record.mentions members).map Prod.fst, p.Lacks field := by
  obtain ⟨full, hfull, habsent⟩ := exists_close_of_faultless hfaultless hrequired
  obtain ⟨p, rfl⟩ : ∃ p : KeyParams, p.get = full := ⟨ofFields full, get_ofFields full⟩
  refine ⟨p, ?_, fun field hfield => lacks_of_whenAbsent (habsent field hfield)⟩
  rw [ofJson_ofList, readAll_mentions hobject]
  exact map_eq_ok_iff.mpr ⟨p.get, hfull, rfl⟩

/-- An array and an object of all values agree, for parameters and for an instant. An array that ends early is refused for its length, while an object may leave out any field that is not required. -/
theorem array_agrees_with_object :
    (∀ (members : List NamedMember) (items : List Item) (array object : Item),
      SpellsArray items array.value →
        SpellsObject (members.map NamedMember.member) object.value →
          record.Pairs members items →
            ofJson (String.ofList array.text) = ofJson (String.ofList object.text)) ∧
    (∀ (members : List NamedMember) (items : List Item) (array object : Item),
      SpellsArray items array.value →
        SpellsObject (members.map NamedMember.member) object.value →
          EpochOffset.record.Pairs members items →
            Instant.codec.orNull.readAll array.text =
              Instant.codec.orNull.readAll object.text) ∧
    (∀ (items : List Item) (array : Item), SpellsArray items array.value → items.length < 15 →
      (∀ m ∈ Field.all.zip (items.map Item.value),
        IsValue m.2 ∧ ∃ value, m.1.codec.readAll m.2 = .ok value) →
          ofJson (String.ofList array.text) =
            .error (.invalidLength (namedLength items.length) "KeyDescriptorParams" 15)) ∧
    ∀ (members : List NamedMember) (object : Item),
      SpellsObject (members.map NamedMember.member) object.value →
        Faultless (record.mentions members) →
          (∀ field ∈ Field.required, field ∈ (record.mentions members).map Prod.fst) →
            ∃ p, ofJson (String.ofList object.text) = .ok p ∧
              ∀ field ∉ (record.mentions members).map Prod.fst, p.Lacks field :=
  ⟨fun _ _ _ _ => ofJson_pairs, fun _ _ _ _ => Instant.readAll_pairs,
    fun _ _ => ofJson_shortArray, fun _ _ => exists_ofJson_object⟩

def sample : KeyParams :=
  { keyAlias := some "k", keySize := 256, insideSecureHardware := true, origin := .imported }

/-- What is written for the fields of the sample. -/
def sampleText : Field → List Char
  | .keyAlias => writeText ['k']
  | .keySize => writeInt 256
  | .insideSecureHardware => writeBoolean true
  | .origin => writeText "IMPORTED".toList
  | .purposes => writeText []
  | .authenticationRequired => writeBoolean false
  | .authenticationValidity => writeInt (-1)
  | .authenticationInSecureHardware => writeBoolean false
  | _ => writeNull

theorem isValue_writeText (chars : List Char) : IsValue (writeText chars) :=
  .text (spellsChars_flatMap_writeChar chars).isBody

theorem isValue_sampleText (field : Field) : IsValue (sampleText field) := by
  cases field with
  | keyAlias => exact isValue_writeText _
  | keySize => exact .number (Numeral.spells_writeInt _)
  | insideSecureHardware => exact .boolean true
  | origin => exact isValue_writeText _
  | purposes => exact isValue_writeText _
  | authenticationRequired => exact .boolean false
  | authenticationValidity => exact .number (Numeral.spells_writeInt _)
  | authenticationInSecureHardware => exact .boolean false
  | _ => exact .null

def sampleItems : List Item := Field.all.map fun field => ⟨.none, sampleText field, lineBreak⟩

def sampleMembers : List NamedMember := Field.all.map fun field =>
  ⟨writtenMember (R := record) sampleText field, field.key.toList, spellsChars_flatMap_writeChar _,
    isValue_sampleText field⟩

def sampleArray (n : Nat) : Item :=
  ⟨lineBreak, writeArray ((sampleItems.take n).map Item.text), .none⟩

def sampleObject : Item :=
  ⟨.none, writeObject ((sampleMembers.map NamedMember.member).map Member.text), lineBreak⟩

theorem pairs_sampleItems : record.Pairs sampleMembers sampleItems where
  names := rfl
  values := rfl

theorem write_sample (field : Field) :
    field.codec.write (sample.get field) = .ok (sampleText field) := by
  cases field <;> rfl

theorem readAll_sampleItems : ∀ m ∈ Field.all.zip ((sampleItems.take 4).map Item.value),
    IsValue m.2 ∧ ∃ value, m.1.codec.readAll m.2 = .ok value := by
  have hzip : Field.all.zip ((sampleItems.take 4).map Item.value) =
      (Field.all.take 4).map fun field => (field, sampleText field) := rfl
  rw [hzip, List.forall_mem_map]
  exact fun field _ => ⟨isValue_sampleText field, _,
    Codec.readAll_of_reads ((lawful_field field).reads (write_sample field))⟩

theorem ofJson_sampleItems :
    ofJson (String.ofList (sampleArray 15).text) = ofJson (String.ofList sampleObject.text) ∧
      ofJson (String.ofList (sampleArray 4).text) =
        .error (.invalidLength 7 "KeyDescriptorParams" 15) := by
  obtain ⟨hall, -, hshort, -⟩ := array_agrees_with_object
  have hobject : SpellsObject (sampleMembers.map NamedMember.member) sampleObject.value :=
    spellsObject_writeObject _
  exact ⟨hall _ _ _ _ (spellsArray_writeArray _) hobject pairs_sampleItems,
    hshort _ _ (spellsArray_writeArray _) (by decide) readAll_sampleItems⟩

end KeyParams

end HardwareKeys

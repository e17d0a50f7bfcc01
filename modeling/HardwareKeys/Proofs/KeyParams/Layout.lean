import HardwareKeys.Proofs.Json.Layout
import HardwareKeys.Proofs.KeyParams.Codec

/-!
# Parameters in any layout

What is read from an object of parameters depends on the values it assigns alone. Each required field has to have one, an optional field may have one, and what stands around the values or under unknown keys does not matter.
-/

namespace HardwareKeys

open Json

namespace Origin

theorem takes_readName : Takes readName := by
  intro s origin rest h more hmore
  obtain ⟨⟨name, tail⟩, hchars, h⟩ := bind_eq_ok_iff.mp h
  obtain ⟨origin, horigin, h⟩ := bind_eq_ok_iff.mp h
  cases h
  refine bind_eq_ok_iff.mpr ⟨_, takes_readChars hchars hmore, ?_⟩
  exact bind_eq_ok_iff.mpr ⟨origin, horigin, rfl⟩

theorem takes_readKey : Takes readKey := by
  intro s origin rest h more hmore
  unfold readKey at h ⊢
  split at h
  · cases h
  · cases h
  · next hs =>
    rw [skipBlanks_append_of_cons hs]
    exact takes_readName h hmore
  · cases h

theorem passes_closeVariant : Passes closeVariant := by
  intro s rest h more _
  unfold closeVariant at h ⊢
  split at h
  · cases h
  · next hs =>
    cases h
    rw [skipBlanks_append_of_cons hs]
    rfl
  · cases h

theorem takes_readVariant : Takes readVariant := by
  intro s origin rest h more hmore
  obtain ⟨⟨origin, afterKey⟩, hkey, h⟩ := bind_eq_ok_iff.mp h
  obtain ⟨afterColon, hcolon, h⟩ := bind_eq_ok_iff.mp h
  obtain ⟨⟨⟨⟩, afterUnit⟩, hunit, h⟩ := bind_eq_ok_iff.mp h
  obtain ⟨last, hclose, h⟩ := bind_eq_ok_iff.mp h
  cases h
  refine bind_eq_ok_iff.mpr ⟨_, takes_readKey hkey hmore, ?_⟩
  refine bind_eq_ok_iff.mpr ⟨_, passes_expectColon hcolon hmore, ?_⟩
  refine bind_eq_ok_iff.mpr ⟨_, Reader.stable_unit.takes hunit hmore, ?_⟩
  exact bind_eq_ok_iff.mpr ⟨_, passes_closeVariant hclose hmore, rfl⟩

theorem stable_reader : reader.Stable where
  skips blanks s := by simp only [reader, blanks.skipBlanks_append]
  takes := by
    intro s origin rest h more hmore
    simp only [reader] at h ⊢
    split at h
    · cases h
    · next hs =>
      rw [skipBlanks_append_of_cons hs]
      exact takes_readName h hmore
    · next hs =>
      rw [skipBlanks_append_of_cons hs]
      exact takes_readVariant h hmore
    · cases h

end Origin

theorem Purposes.stable_codec : Purposes.codec.read.Stable :=
  (Reader.stable_chars .purposes).mapOk Purposes.ofChars

theorem Instant.stable_codec : Instant.codec.read.Stable := by
  have hfield : ∀ field : EpochOffset.Field, field.codec.read.Stable := by
    intro field
    cases field with
    | seconds => exact Reader.stable_integer _ _
    | nanos => exact Reader.stable_integer _ _
  have hrecord : EpochOffset.record.toCodec.read.Stable := Record.stable_reader hfield
  exact Codec.stable_via (Codec.stable_via hrecord _ _) ofEpochOffset epochOffset

namespace KeyParams

theorem stable_field (field : Field) : field.codec.read.Stable := by
  have hinstant := Instant.stable_codec.orNull
  have htokens := Reader.stable_text.list.orNull
  cases field with
  | keyAlias => exact Reader.stable_text.orNull
  | keySize => exact Reader.stable_integer _ _
  | insideSecureHardware => exact Reader.stable_boolean
  | origin => exact Origin.stable_reader
  | validityStart => exact hinstant
  | originationEnd => exact hinstant
  | consumptionEnd => exact hinstant
  | purposes => exact Purposes.stable_codec
  | encryptionPaddings => exact htokens
  | signaturePaddings => exact htokens
  | digests => exact htokens
  | blockModes => exact htokens
  | authenticationRequired => exact Reader.stable_boolean
  | authenticationValidity => exact Reader.stable_integer _ _
  | authenticationInSecureHardware => exact Reader.stable_boolean

theorem stable_codec : codec.read.Stable := by
  have hrecord : record.toCodec.read.Stable := Record.stable_reader stable_field
  exact Codec.stable_via hrecord _ _

/-- The fields that every object of parameters has to mention. -/
def Field.required : List Field :=
  [keySize, insideSecureHardware, origin, purposes, authenticationRequired,
    authenticationValidity, authenticationInSecureHardware]

/-- The optional field holds nothing. -/
def Lacks (p : KeyParams) : Field → Prop
  | .keyAlias => p.keyAlias = none
  | .validityStart => p.validityStart = none
  | .originationEnd => p.originationEnd = none
  | .consumptionEnd => p.consumptionEnd = none
  | .encryptionPaddings => p.encryptionPaddings = none
  | .signaturePaddings => p.signaturePaddings = none
  | .digests => p.digests = none
  | .blockModes => p.blockModes = none
  | _ => False

theorem isSome_whenAbsent {field : Field} (h : field ∉ Field.required) :
    field.whenAbsent.isSome := by
  cases field <;> first | rfl | exact absurd h (by decide)

theorem lacks_of_whenAbsent {p : KeyParams} {field : Field}
    (h : field.whenAbsent = some (p.get field)) : p.Lacks field := by
  cases field <;> first | exact (Option.some.inj h).symm | cases h

open Record

/-- The object of the entries, with blanks around it. -/
def objectJson (before : Blanks) (entries : List record.Entry) (after : Blanks) : String :=
  String.ofList (before.text ++ (writeObject (entries.map fun e => e.member.text) ++ after.text))

theorem ofJson_objectJson {entries : List record.Entry} {p : KeyParams}
    (hnodup : (assignedFields (assignments entries)).Nodup)
    (hp : Describes (R := record) (assignments entries) p.get) (before after : Blanks) :
    ofJson (objectJson before entries after) = .ok p := by
  have hrun : codec.read.run
      (before.text ++ (writeObject (entries.map fun e => e.member.text) ++ after.text)) =
        .ok (p, after.text) := by
    rw [stable_codec.skips]
    exact bind_eq_ok_iff.mpr ⟨_, run_entries key_injective stable_field hnodup hp _, rfl⟩
  rw [ofJson, Codec.ofText, objectJson, String.toList_ofList, Codec.readAll_of_run hrun,
    expectEnd_eq_ok_iff.mpr after.blank]
  rfl

/-- An object that assigns each required field once and no field twice is read, in any layout. Its fields hold what is assigned to them, and the others nothing; every object with the same assignments is read alike. -/
theorem ofJson_of_assignments (entries : List record.Entry)
    (hnodup : (assignedFields (assignments entries)).Nodup)
    (hrequired : ∀ field ∈ Field.required, field ∈ assignedFields (assignments entries))
    (before after : Blanks) :
    ∃ p, ofJson (objectJson before entries after) = .ok p ∧
      (∀ a ∈ assignments entries, p.get a.1 = a.2) ∧
      (∀ field ∉ assignedFields (assignments entries), p.Lacks field) ∧
      ∀ (others : List record.Entry) (left right : Blanks),
        (assignments others).Perm (assignments entries) →
          ofJson (objectJson left others right) = .ok p := by
  have habsent : ∀ field ∉ assignedFields (assignments entries),
      (record.whenAbsent field).isSome :=
    fun field hfield => isSome_whenAbsent fun hmem => hfield (hrequired field hmem)
  obtain ⟨full, hfull⟩ := exists_describes hnodup habsent
  obtain ⟨p, rfl⟩ : ∃ p : KeyParams, p.get = full := ⟨ofFields full, get_ofFields full⟩
  refine ⟨p, ofJson_objectJson hnodup hfull before after, hfull.assigned, ?_, ?_⟩
  · intro field hfield
    exact lacks_of_whenAbsent (hfull.absent field hfield)
  · intro others left right hperm
    have hothers : (assignedFields (assignments others)).Nodup :=
      (hperm.map Sigma.fst).nodup_iff.mpr hnodup
    exact ofJson_objectJson hothers (hfull.of_perm hperm) left right

/-! ### An object out of order -/

def lineBreak : Blanks := ⟨['\r', '\n', '\t'], List.all_eq_true.mp rfl⟩

/-- The entry of a field with its value as it is written, on a line of its own. -/
def writtenEntry (field : Field) (value : field.Value) (text : List Char)
    (h : field.codec.write value = .ok text) : record.Entry :=
  .known field value
    ⟨lineBreak, field.key.toList.flatMap writeChar, .none, ⟨lineBreak, text, .none⟩⟩
    (spellsChars_flatMap_writeChar _) (Codec.readAll_of_reads ((lawful_field field).reads h))

theorem spellsChars_escapedAlias : SpellsChars "\\u0061lias".toList Field.keyAlias.key.toList := by
  have hunit : SpellsUnit "0061".toList 0x61 := ⟨rfl, rfl⟩
  have hletter : SpellsChar "\\u0061".toList 'a' := .unit hunit rfl rfl
  exact .cons hletter (spellsChars_flatMap_writeChar "lias".toList)

/-- An alias under a key with an escape. -/
def escapedEntry : record.Entry :=
  .known .keyAlias (some "k")
    ⟨.none, "\\u0061lias".toList, lineBreak, ⟨.none, writeText ['k'], .none⟩⟩
    spellsChars_escapedAlias (Codec.readAll_of_reads ((lawful_field .keyAlias).reads rfl))

def tinyNumeral : Numeral := ⟨true, ['0'], some ['5'], some ⟨true, "9999".toList⟩⟩

theorem spells_tinyNumeral : tinyNumeral.Spells "-0.5E-9999".toList := by
  have hzero : Numeral.IsWhole ['0'] := ⟨⟨nofun, List.all_eq_true.mp rfl⟩, by simp⟩
  have hfive : Numeral.IsDigits ['5'] := ⟨nofun, List.all_eq_true.mp rfl⟩
  have hnines : Numeral.IsDigits "9999".toList := ⟨nofun, List.all_eq_true.mp rfl⟩
  have hexponent : Numeral.SpellsExponent tinyNumeral.exponent ('E' :: (['-'] ++ "9999".toList)) :=
    .present (.inr rfl) .minus hnines
  exact .parts hzero (.present hfive) hexponent

/-- A member whose key holds the escape of a lone surrogate. -/
def strayMember : Member :=
  ⟨.none, "\\ud800".toList, .none, ⟨.none, "-0.5E-9999".toList, lineBreak⟩⟩

def strayItem : Item := ⟨lineBreak, writeObject ([strayMember].map Member.text), .none⟩

def strayValue : List Char := writeArray ([strayItem].map Item.text)

theorem isValue_strayValue : IsValue strayValue := by
  have hunit : SpellsUnit "d800".toList 0xd800 := ⟨rfl, rfl⟩
  have hkey : IsBody strayMember.key := .cons (.unit hunit) .nil
  refine .array (.object hkey (.number spells_tinyNumeral) ?_ ?_) ?_ <;> simp

/-- An entry that is passed over. -/
def strayEntry : record.Entry :=
  .unknown [] ⟨.none, [], .none, ⟨.none, strayValue, .none⟩⟩ .nil
    (by intro field; cases field <;> decide) isValue_strayValue

/-- The required fields from last to first, an alias, and the same unknown key before and after. -/
def shuffledEntries : List record.Entry :=
  [strayEntry, writtenEntry .authenticationInSecureHardware false "false".toList rfl,
    writtenEntry .authenticationValidity (-1 : Int32) "-1".toList rfl,
    writtenEntry .authenticationRequired true "true".toList rfl, escapedEntry,
    writtenEntry .purposes (⟨0x2⟩ : Purposes) "\"DECRYPT\"".toList rfl,
    writtenEntry .origin Origin.imported "\"IMPORTED\"".toList rfl,
    writtenEntry .insideSecureHardware true "true".toList rfl,
    writtenEntry .keySize (256 : UInt32) "256".toList rfl, strayEntry]

/-- The fields in the order in which the object mentions them. -/
def shuffledFields : List Field :=
  [.authenticationInSecureHardware, .authenticationValidity, .authenticationRequired, .keyAlias,
    .purposes, .origin, .insideSecureHardware, .keySize]

theorem mem_shuffledEntries_of_required :
    ∀ field ∈ Field.required, field ∈ assignedFields (assignments shuffledEntries) := by
  have hmem : ∀ field ∈ Field.required, field ∈ shuffledFields := by decide
  exact hmem

theorem ofJson_shuffledEntries :
    (assignedFields (assignments shuffledEntries)).Nodup ∧
      (∀ field ∈ Field.required, field ∈ assignedFields (assignments shuffledEntries)) ∧
      ∃ p, ofJson (objectJson lineBreak shuffledEntries lineBreak) = .ok p ∧
        (∀ a ∈ assignments shuffledEntries, p.get a.1 = a.2) ∧
        (∀ field ∉ assignedFields (assignments shuffledEntries), p.Lacks field) ∧
        ∀ (others : List record.Entry) (left right : Blanks),
          (assignments others).Perm (assignments shuffledEntries) →
            ofJson (objectJson left others right) = .ok p :=
  ⟨by decide, mem_shuffledEntries_of_required,
    ofJson_of_assignments shuffledEntries (by decide) mem_shuffledEntries_of_required _ _⟩

end KeyParams

end HardwareKeys

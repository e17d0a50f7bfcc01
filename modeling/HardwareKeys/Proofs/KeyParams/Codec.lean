import HardwareKeys.KeyParams.Json
import HardwareKeys.Proofs.Instant
import HardwareKeys.Proofs.Json.Record
import HardwareKeys.Proofs.Purposes.Text

/-!
# The law of the parameters' codec

Each field of the record of parameters has a lawful codec, so the record has one too. It writes all parameters but those that hold the earliest instant.
-/

namespace HardwareKeys

open Json

namespace Origin

theorem ofChars_name (origin : Origin) : ofChars origin.name.toList = .ok origin := by
  rw [ofChars, String.ofList_toList, ofName?_name]
  rfl

theorem readName_name (origin : Origin) (rest : List Char) :
    readName (origin.name.toList.flatMap writeChar ++ '"' :: rest) = .ok (origin, rest) := by
  simp [readName, readChars_flatMap_writeChar, ofChars_name, bind, Except.bind, pure, Except.pure]

theorem lawful_codec : codec.Lawful where
  reads := by
    rintro origin s ⟨⟩ rest -
    rw [writeText_append]
    exact readName_name origin rest
  starts := by
    rintro origin s ⟨⟩
    exact Codec.startsItem_writeText _

end Origin

namespace Purposes

theorem lawful_codec : codec.Lawful where
  reads := by
    rintro p s ⟨⟩
    have hchars : ofChars p.text = .ok p := by rw [ofChars, ofText_text]
    exact (Reader.reads_chars .purposes p.text).mapOk hchars
  starts := by
    rintro p s ⟨⟩
    exact Codec.startsItem_writeText _

end Purposes

namespace EpochOffset

theorem key_injective : Function.Injective Field.key := by
  intro field other h
  cases field <;> cases other <;> first | rfl | exact absurd h (by decide)

theorem nodup_fields : record.fields.Nodup := by
  decide

theorem lawful_field (field : Field) : field.codec.Lawful := by
  cases field with
  | seconds => exact Codec.lawful_int64
  | nanos => exact Codec.lawful_word32

theorem ofFields_get (offset : EpochOffset) : ofFields offset.get = offset := rfl

theorem lawful_codec : codec.Lawful := by
  refine (Record.lawful_toCodec key_injective nodup_fields lawful_field).via ?_
  rintro full offset ⟨⟩
  exact congrArg Except.ok offset.ofFields_get

theorem neverNull_codec : codec.NeverNull := Record.neverNull_toCodec.via

theorem writes_codec (offset : EpochOffset) : codec.Writes offset := by
  refine Codec.writes_via.mpr ⟨_, rfl, Record.writes_toCodec.mpr fun field => ?_⟩
  cases field with
  | seconds => exact ⟨_, rfl⟩
  | nanos => exact ⟨_, rfl⟩

end EpochOffset

namespace Instant

theorem ofEpochOffset_eq_ok_iff {offset : EpochOffset} {t : Instant} :
    ofEpochOffset offset = .ok t ↔ t.parts = offset := by
  rw [← EpochOffset.toInstant?_eq_some_iff, ofEpochOffset]
  split <;> simp [*]

theorem epochOffset_eq_ok_iff {t : Instant} {offset : EpochOffset} :
    t.epochOffset = .ok offset ↔ t ≠ earliest ∧ t.parts = offset := by
  rw [← toEpochOffset?_eq_some_iff, epochOffset]
  split <;> simp [*]

theorem lawful_codec : codec.Lawful :=
  EpochOffset.lawful_codec.via fun h =>
    ofEpochOffset_eq_ok_iff.mpr (epochOffset_eq_ok_iff.mp h).2

theorem neverNull_codec : codec.NeverNull := EpochOffset.neverNull_codec.via

theorem writes_codec {t : Instant} : codec.Writes t ↔ t ≠ earliest := by
  rw [codec, Codec.writes_via]
  constructor
  · rintro ⟨offset, h, -⟩
    exact (epochOffset_eq_ok_iff.mp h).1
  · intro h
    exact ⟨t.parts, epochOffset_eq_ok_iff.mpr ⟨h, rfl⟩, EpochOffset.writes_codec _⟩

theorem writes_orNull_codec {t : Option Instant} : codec.orNull.Writes t ↔ t ≠ some earliest := by
  rw [Codec.writes_orNull]
  simp only [writes_codec]
  cases t with
  | none => simp
  | some t => simp

end Instant

namespace KeyParams

/-- None of the three instants is the earliest one. -/
def AvoidsEarliest (p : KeyParams) : Prop :=
  p.validityStart ≠ some .earliest ∧ p.originationEnd ≠ some .earliest ∧
    p.consumptionEnd ≠ some .earliest

instance (p : KeyParams) : Decidable p.AvoidsEarliest :=
  inferInstanceAs (Decidable (_ ∧ _ ∧ _))

theorem key_injective : Function.Injective Field.key := by
  intro field other h
  cases field <;> cases other <;> first | rfl | exact absurd h (by decide)

theorem nodup_fields : record.fields.Nodup := by
  decide

theorem lawful_field (field : Field) : field.codec.Lawful := by
  have hinstant := Instant.lawful_codec.orNull Instant.neverNull_codec
  have htokens := Codec.lawful_text.list.orNull Codec.neverNull_list
  cases field with
  | keyAlias => exact Codec.lawful_text.orNull Codec.neverNull_text
  | keySize => exact Codec.lawful_word32
  | insideSecureHardware => exact Codec.lawful_boolean
  | origin => exact Origin.lawful_codec
  | validityStart => exact hinstant
  | originationEnd => exact hinstant
  | consumptionEnd => exact hinstant
  | purposes => exact Purposes.lawful_codec
  | encryptionPaddings => exact htokens
  | signaturePaddings => exact htokens
  | digests => exact htokens
  | blockModes => exact htokens
  | authenticationRequired => exact Codec.lawful_boolean
  | authenticationValidity => exact Codec.lawful_int32
  | authenticationInSecureHardware => exact Codec.lawful_boolean

theorem lawful_codec : codec.Lawful := by
  refine (Record.lawful_toCodec key_injective nodup_fields lawful_field).via ?_
  rintro full p ⟨⟩
  exact congrArg Except.ok p.ofFields_get

theorem writes_tokens (tokens : Option (List String)) : Codec.text.list.orNull.Writes tokens :=
  Codec.writes_orNull.mpr fun _ _ => Codec.writes_list.mpr fun _ _ => ⟨_, rfl⟩

theorem writes_field {p : KeyParams} (h : p.AvoidsEarliest) (field : Field) :
    field.codec.Writes (p.get field) := by
  obtain ⟨hstart, horigination, hconsumption⟩ := h
  cases field with
  | keyAlias => exact Codec.writes_orNull.mpr fun _ _ => ⟨_, rfl⟩
  | validityStart => exact Instant.writes_orNull_codec.mpr hstart
  | originationEnd => exact Instant.writes_orNull_codec.mpr horigination
  | consumptionEnd => exact Instant.writes_orNull_codec.mpr hconsumption
  | encryptionPaddings => exact writes_tokens _
  | signaturePaddings => exact writes_tokens _
  | digests => exact writes_tokens _
  | blockModes => exact writes_tokens _
  | _ => exact ⟨_, rfl⟩

/-- Only the instants can keep parameters from being written. -/
theorem writes_codec {p : KeyParams} : codec.Writes p ↔ p.AvoidsEarliest := by
  have hrecord : codec.Writes p ↔ ∀ field : Field, field.codec.Writes (p.get field) := by
    refine Codec.writes_via.trans ⟨?_, fun h => ⟨_, rfl, Record.writes_toCodec.mpr h⟩⟩
    rintro ⟨full, hfull, h⟩
    cases hfull
    exact Record.writes_toCodec.mp h
  rw [hrecord]
  constructor
  · intro h
    exact ⟨Instant.writes_orNull_codec.mp (h .validityStart),
      Instant.writes_orNull_codec.mp (h .originationEnd),
      Instant.writes_orNull_codec.mp (h .consumptionEnd)⟩
  · exact writes_field

end KeyParams

end HardwareKeys

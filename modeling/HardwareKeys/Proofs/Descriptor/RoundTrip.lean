import HardwareKeys.Proofs.Descriptor.Json
import HardwareKeys.Proofs.KeyParams.RoundTrip

/-!
# Writing what has been read

All parameters are read from some text, and so is every descriptor. Whatever has been read can be written and read again, except that the earliest instant has an offset to be read from and none to be written as.
-/

namespace HardwareKeys

open Json

namespace EpochOffset

/-- The offset of the earliest instant. -/
def earliest : EpochOffset := ⟨Int64.minValue, 0⟩

theorem toEpochOffset?_of_toInstant? {offset : EpochOffset} {t : Instant}
    (h : offset.toInstant? = some t) :
    t.toEpochOffset? = if offset = earliest then none else some offset := by
  have hparts := toInstant?_eq_some_iff.mp h
  by_cases hearliest : offset = earliest
  · have ht : t = Instant.earliest := Instant.ext_parts (hparts.trans hearliest)
    rw [if_pos hearliest, ht, Instant.toEpochOffset?_earliest]
  · have ht : t ≠ Instant.earliest := by
      rintro rfl
      exact hearliest hparts.symm
    rw [if_neg hearliest, Instant.toEpochOffset?_eq_some ht, hparts]

end EpochOffset

namespace Descriptor

theorem ofJson_of_toJson {d : Descriptor} {s : String} (h : d.toJson = .ok s) :
    (ofJson s).value = .ok d :=
  ofJson_eq_ok_iff.mpr ⟨_, KeyParams.ofJson_of_toJson h, ofParams_toParams d⟩

theorem exists_ofJson (d : Descriptor) : ∃ s, (ofJson s).value = .ok d := by
  obtain ⟨s, hs⟩ := d.toParams.exists_ofJson
  exact ⟨s, ofJson_eq_ok_iff.mpr ⟨_, hs, ofParams_toParams d⟩⟩

end Descriptor

/-- The parameters are written, and what is written is read as them. -/
def KeyParams.WritesBack (p : KeyParams) : Prop :=
  ∃ s, p.toJson = .ok s ∧ KeyParams.ofJson s = .ok p

/-- The descriptor is written, and what is written is read as it. -/
def Descriptor.WritesBack (d : Descriptor) : Prop :=
  ∃ s, d.toJson = .ok s ∧ (Descriptor.ofJson s).value = .ok d

theorem KeyParams.writesBack_iff {p : KeyParams} : p.WritesBack ↔ p.AvoidsEarliest := by
  rw [← KeyParams.exists_toJson_iff]
  constructor
  · rintro ⟨s, hs, -⟩
    exact ⟨s, hs⟩
  · rintro ⟨s, hs⟩
    exact ⟨s, hs, KeyParams.ofJson_of_toJson hs⟩

theorem Descriptor.writesBack_iff {d : Descriptor} :
    d.WritesBack ↔ d.toParams.AvoidsEarliest := by
  rw [← KeyParams.exists_toJson_iff]
  constructor
  · rintro ⟨s, hs, -⟩
    exact ⟨s, hs⟩
  · rintro ⟨s, hs⟩
    exact ⟨s, hs, Descriptor.ofJson_of_toJson hs⟩

/-- What is read from a text can be written back exactly if it does not hold the earliest instant, which is the one instant that has an offset to be read from and none to be written as. -/
theorem writesBack_of_read_iff (s : String) (offset : EpochOffset) :
    (∀ p, KeyParams.ofJson s = .ok p →
      (p.WritesBack ↔ p.AvoidsEarliest) ∧
      (p.toJson = .error .instantOutOfRange ↔ ¬p.AvoidsEarliest)) ∧
    (∀ d, (Descriptor.ofJson s).value = .ok d →
      (d.WritesBack ↔ d.toParams.AvoidsEarliest) ∧
      (d.toJson = .error .instantOutOfRange ↔ ¬d.toParams.AvoidsEarliest)) ∧
    (∀ t, offset.toInstant? = some t →
      t.toEpochOffset? = if offset = .earliest then none else some offset) :=
  ⟨fun _ _ => ⟨KeyParams.writesBack_iff, KeyParams.toJson_eq_error_iff⟩,
    fun _ _ => ⟨Descriptor.writesBack_iff, KeyParams.toJson_eq_error_iff⟩,
    fun _ => EpochOffset.toEpochOffset?_of_toInstant?⟩

def earliestParams : KeyParams where
  keyAlias := some "k"
  validityStart := some .earliest
  encryptionPaddings := some []
  signaturePaddings := some []
  digests := some []
  blockModes := some []

def earliestFieldText : KeyParams.Field → List Char
  | .keyAlias => writeText ['k']
  | .keySize => writeInt 0
  | .insideSecureHardware => writeBoolean false
  | .origin => writeText Origin.unknown.name.toList
  | .validityStart => EpochOffset.record.objectText fun
    | .seconds => writeInt Int64.minValue.toInt
    | .nanos => writeInt 0
  | .originationEnd => writeNull
  | .consumptionEnd => writeNull
  | .purposes => writeText []
  | .encryptionPaddings => writeArray []
  | .signaturePaddings => writeArray []
  | .digests => writeArray []
  | .blockModes => writeArray []
  | .authenticationRequired => writeBoolean false
  | .authenticationValidity => writeInt (-1)
  | .authenticationInSecureHardware => writeBoolean false

/-- The object that has the least seconds under its first instant. -/
def earliestText : String := String.ofList (KeyParams.record.objectText earliestFieldText)

theorem reads_earliestFieldText (field : KeyParams.Field) :
    field.codec.read.Reads (earliestFieldText field) (earliestParams.get field) := by
  cases field with
  | validityStart => exact KeyParams.reads_instant rfl
  | _ => exact (KeyParams.lawful_field _).reads rfl

theorem ofJson_earliestText : KeyParams.ofJson earliestText = .ok earliestParams :=
  KeyParams.ofJson_objectText reads_earliestFieldText

theorem earliestText_not_written :
    (∃ p, KeyParams.ofJson earliestText = .ok p ∧ ∀ s, p.toJson ≠ .ok s) ∧
      ∃ d, (Descriptor.ofJson earliestText).value = .ok d ∧ ∀ s, d.toJson ≠ .ok s := by
  have hwritten : ∀ s, earliestParams.toJson ≠ .ok s := fun s hs =>
    absurd (KeyParams.exists_toJson_iff.mp ⟨s, hs⟩) (by decide)
  obtain ⟨d, hd, -, hparams⟩ := Descriptor.ofParams_of_alias (p := earliestParams) rfl
  have hdescriptor : (Descriptor.ofJson earliestText).value = .ok d :=
    Descriptor.ofJson_eq_ok_iff.mpr ⟨_, ofJson_earliestText, hd⟩
  refine ⟨⟨_, ofJson_earliestText, hwritten⟩, d, hdescriptor, ?_⟩
  rw [Descriptor.toJson, hparams]
  exact hwritten

theorem writesBack_earliestText :
    KeyParams.ofJson earliestText = .ok earliestParams ∧ ¬earliestParams.WritesBack ∧
      earliestParams.toJson = .error .instantOutOfRange := by
  obtain ⟨hparams, -⟩ := writesBack_of_read_iff earliestText .earliest
  obtain ⟨hiff, herror⟩ := hparams earliestParams ofJson_earliestText
  exact ⟨ofJson_earliestText, fun h => absurd (hiff.mp h) (by decide), herror.mpr (by decide)⟩

end HardwareKeys

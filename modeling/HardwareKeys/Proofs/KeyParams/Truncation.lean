import HardwareKeys.Proofs.Descriptor.Json
import HardwareKeys.Proofs.Json.TruncatedRecord
import HardwareKeys.Proofs.KeyParams.Positions

/-!
# Parameters and descriptors that are cut off

The text of parameters or of a descriptor is read as a whole or not at all. Where it has lost its end, even one character, both readers say that it ended too early, and a descriptor reports nothing.
-/

namespace HardwareKeys

open Json

theorem Origin.awaits_codec : Origin.codec.Awaits := by
  rintro origin s ⟨⟩ t ht
  obtain rfl | ⟨tail, rfl, htail⟩ := cut_cons_iff.mp ht
  · exact ⟨_, rfl, rfl⟩
  · exact (ended_readChars_writeText htail).bind _

theorem Purposes.awaits_codec : Purposes.codec.Awaits := by
  rintro p s ⟨⟩
  exact (Reader.awaits_chars .purposes p.text).mapOk ofChars

namespace EpochOffset

theorem exhausts_field (field : Field) : field.codec.Exhausts := by
  cases field with
  | seconds => exact Codec.exhausts_int64
  | nanos => exact Codec.exhausts_word32

theorem awaits_codec : codec.Awaits := by
  have hrecord : record.toCodec.Awaits :=
    Record.awaits_toCodec key_injective nodup_fields lawful_field exhausts_field
  exact hrecord.via _ _

end EpochOffset

theorem Instant.awaits_codec : Instant.codec.Awaits := EpochOffset.awaits_codec.via _ _

namespace KeyParams

theorem exhausts_field (field : Field) : field.codec.Exhausts := by
  have hinstant : Instant.codec.orNull.Awaits :=
    Instant.awaits_codec.orNull Instant.lawful_codec Instant.neverNull_codec ⟨_, rfl, rfl⟩
  have htokens : Codec.text.list.orNull.Awaits :=
    (Codec.awaits_text.exhausts.list Codec.lawful_text).orNull Codec.lawful_text.list
      Codec.neverNull_list ⟨_, rfl, rfl⟩
  have halias : Codec.text.orNull.Awaits :=
    Codec.awaits_text.orNull Codec.lawful_text Codec.neverNull_text ⟨_, rfl, rfl⟩
  cases field with
  | keyAlias => exact halias.exhausts
  | keySize => exact Codec.exhausts_word32
  | insideSecureHardware => exact Codec.awaits_boolean.exhausts
  | origin => exact Origin.awaits_codec.exhausts
  | validityStart => exact hinstant.exhausts
  | originationEnd => exact hinstant.exhausts
  | consumptionEnd => exact hinstant.exhausts
  | purposes => exact Purposes.awaits_codec.exhausts
  | encryptionPaddings => exact htokens.exhausts
  | signaturePaddings => exact htokens.exhausts
  | digests => exact htokens.exhausts
  | blockModes => exact htokens.exhausts
  | authenticationRequired => exact Codec.awaits_boolean.exhausts
  | authenticationValidity => exact Codec.exhausts_int32
  | authenticationInSecureHardware => exact Codec.awaits_boolean.exhausts

theorem awaits_codec : codec.Awaits := by
  have hrecord : record.toCodec.Awaits :=
    Record.awaits_toCodec key_injective nodup_fields lawful_field exhausts_field
  exact hrecord.via _ _

theorem ended_readValue {p : KeyParams} {s t : String} (hwrite : p.toJson = .ok s)
    (hpart : t.toList <+: s.toList) (hne : t ≠ s) : Ended (readValue t) := by
  obtain ⟨text, htext, rfl⟩ := map_eq_ok_iff.mp hwrite
  refine awaits_codec p text htext t.toList (cut_iff_isPrefix.mpr ⟨?_, fun heq => hne ?_⟩)
  · rwa [String.toList_ofList] at hpart
  · rw [← heq, String.ofList_toList]

end KeyParams

/-- A text that has lost its end is refused for that, by both readers, and nothing is reported. -/
theorem ended_of_isPrefix {s t : String}
    (hwritten : (∃ p : KeyParams, p.toJson = .ok s) ∨ ∃ d : Descriptor, d.toJson = .ok s)
    (hpart : t.toList <+: s.toList) (hne : t ≠ s) :
    ∃ e : ReadError, e.category = .ended ∧ KeyParams.ofJson t = .error e ∧
      Descriptor.ofJson t = ⟨[], .error e⟩ := by
  obtain ⟨p, hp⟩ : ∃ p : KeyParams, p.toJson = .ok s := by
    obtain hparams | ⟨d, hd⟩ := hwritten
    · exact hparams
    · exact ⟨d.toParams, hd⟩
  obtain ⟨e, hvalue, he⟩ := KeyParams.ended_readValue hp hpart hne
  exact ⟨e, he, KeyParams.ofJson_of_readValue_error hvalue,
    Descriptor.ofJson_of_readValue_error hvalue⟩

open KeyParams

/-- The sample with one digit of its key size lost, and all that follows. -/
def cutText : String := "\x7b\"alias\":\"k\",\"key_size\":25"

theorem toJson_sample :
    sample.toJson = .ok (String.ofList (record.objectText sampleText)) := by
  have hrecord : record.toCodec.write sample.get = .ok (record.objectText sampleText) :=
    Record.write_eq_ok_iff.mpr ⟨sampleText, write_sample, rfl⟩
  exact map_eq_ok_iff.mpr ⟨_, Codec.write_via_eq_ok_iff.mpr ⟨_, rfl, hrecord⟩, rfl⟩

theorem cut_cutText : Cut cutText.toList (record.objectText sampleText) := ⟨'6', _, rfl⟩

theorem ended_cutText : ∃ s, sample.toJson = .ok s ∧ cutText.toList <+: s.toList ∧ cutText ≠ s ∧
    ∃ e : ReadError, e.category = .ended ∧ KeyParams.ofJson cutText = .error e ∧
      Descriptor.ofJson cutText = ⟨[], .error e⟩ := by
  obtain ⟨hpart, hne⟩ := cut_iff_isPrefix.mp cut_cutText
  rw [← String.toList_ofList (l := record.objectText sampleText)] at hpart hne
  have htext : cutText ≠ String.ofList (record.objectText sampleText) :=
    fun heq => hne (congrArg String.toList heq)
  exact ⟨_, toJson_sample, hpart, htext,
    ended_of_isPrefix (.inl ⟨sample, toJson_sample⟩) hpart htext⟩

end HardwareKeys

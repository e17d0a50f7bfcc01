import HardwareKeys.Proofs.KeyParams.Codec

/-!
# Parameters read back

Written parameters are read back unchanged. Parameters that cannot be written are read from some text all the same.
-/

namespace HardwareKeys

open Json

namespace KeyParams

theorem exists_toJson_iff {p : KeyParams} : (∃ s, p.toJson = .ok s) ↔ p.AvoidsEarliest :=
  Codec.exists_toText_iff.trans writes_codec

theorem ofJson_of_toJson {p : KeyParams} {s : String} (h : p.toJson = .ok s) : ofJson s = .ok p :=
  lawful_codec.ofText_of_toText h

theorem toJson_eq_error_iff {p : KeyParams} {e : WriteError} :
    p.toJson = .error e ↔ ¬p.AvoidsEarliest := by
  rw [← exists_toJson_iff]
  cases h : p.toJson with
  | ok s => simp
  | error found =>
    cases found
    cases e
    simp

/-- Parameters are written, and read back from what is written, unless they hold the earliest instant. -/
theorem toJson_roundTrip {p : KeyParams} (h : p.AvoidsEarliest) :
    ∃ s, p.toJson = .ok s ∧ ofJson s = .ok p := by
  obtain ⟨s, hs⟩ := exists_toJson_iff.mpr h
  exact ⟨s, hs, ofJson_of_toJson hs⟩

/-- Parameters with an empty alias, an absent and an empty list, a repeated token, characters that are escaped, an unnamed purpose and an instant before the epoch. -/
def roundTripSample : KeyParams where
  keyAlias := some ""
  keySize := 4294967295
  origin := .securelyImported
  validityStart := some ⟨-6, 750000000, by decide⟩
  originationEnd := some ⟨Int64.minValue, 1, by decide⟩
  purposes := ⟨0x80000011⟩
  encryptionPaddings := some []
  digests := some ["SHA-256", "\"\\\n", "SHA-256", "\u0001é"]
  authenticationValidity := Int32.minValue

theorem toJson_roundTripSample : roundTripSample.AvoidsEarliest ∧
    ∃ s, roundTripSample.toJson = .ok s ∧ ofJson s = .ok roundTripSample :=
  ⟨by decide, toJson_roundTrip (by decide)⟩

/-- The text of its parts spells an instant, also the earliest one. -/
theorem reads_instant {t : Instant} {text : List Char}
    (h : EpochOffset.codec.write t.parts = .ok text) :
    Instant.codec.orNull.read.Reads text (some t) := by
  have hreads : Instant.codec.read.Reads text t :=
    (EpochOffset.lawful_codec.reads h).mapOk (Instant.ofEpochOffset_eq_ok_iff.mpr rfl)
  exact hreads.orNull (EpochOffset.lawful_codec.starts h) (EpochOffset.neverNull_codec h)

theorem exists_reads_instant (t : Option Instant) :
    ∃ text, Instant.codec.orNull.read.Reads text t := by
  cases t with
  | none => exact ⟨writeNull, Reader.reads_null⟩
  | some t =>
    obtain ⟨text, htext⟩ := EpochOffset.writes_codec t.parts
    exact ⟨text, reads_instant htext⟩

/-- The parameters without their instants. -/
def timeless (p : KeyParams) : KeyParams :=
  { p with validityStart := none, originationEnd := none, consumptionEnd := none }

theorem avoidsEarliest_timeless (p : KeyParams) : p.timeless.AvoidsEarliest :=
  ⟨nofun, nofun, nofun⟩

theorem exists_reads (p : KeyParams) (field : Field) :
    ∃ text, field.codec.read.Reads text (p.get field) := by
  -- Without their instants the parameters can be written, and an instant is spelled by its parts.
  have hother : ∃ text, field.codec.read.Reads text (p.timeless.get field) := by
    obtain ⟨text, htext⟩ := writes_field p.avoidsEarliest_timeless field
    exact ⟨text, (lawful_field field).reads htext⟩
  cases field with
  | validityStart => exact exists_reads_instant _
  | originationEnd => exact exists_reads_instant _
  | consumptionEnd => exact exists_reads_instant _
  | _ => exact hother

theorem ofJson_objectText {p : KeyParams} {texts : Field → List Char}
    (h : ∀ field : Field, field.codec.read.Reads (texts field) (p.get field)) :
    ofJson (String.ofList (record.objectText texts)) = .ok p := by
  have hrecord : record.reader.Reads (record.objectText texts) p.get :=
    Record.reads_objectText key_injective nodup_fields h
  have hreads : codec.read.Reads (record.objectText texts) p :=
    hrecord.mapOk (f := fun full => .ok (ofFields full)) rfl
  rw [ofJson, Codec.ofText, String.toList_ofList]
  exact Codec.readAll_of_reads hreads

theorem exists_ofJson (p : KeyParams) : ∃ s, ofJson s = .ok p := by
  choose texts htexts using p.exists_reads
  exact ⟨_, ofJson_objectText htexts⟩

end KeyParams

end HardwareKeys

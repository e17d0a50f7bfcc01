import HardwareKeys.Proofs.Json.Faults
import HardwareKeys.Proofs.KeyParams.Layout

/-!
# Complete values of parameters

Origins, purposes and instants are read from a complete value, or refused, for what the value is and not for what follows it. So are the fields of parameters and the parameters themselves.
-/

namespace HardwareKeys

open Json

namespace Origin

theorem readKey_member (m : Member) (rest : List Char) :
    readKey (m.text ++ rest) = readName (m.body ++ rest) := by
  simp [readKey, Member.text, skipBlanks_cons, isBlank]

theorem readName_body {body : List Char} (h : IsBody body) (rest : List Char) :
    readName (body ++ '"' :: rest) =
      (fun origin => (origin, rest)) <$> (bodyChars body >>= ofChars) := by
  rw [readName, h.readChars_append]
  cases bodyChars body with
  | error e => rfl
  | ok name =>
    simp only [Functor.map, Except.map, bind, Except.bind]
    cases ofChars name <;> rfl

theorem exists_closeVariant (members : List Member) (blanks : Blanks) :
    ∃ x : Except ReadError Unit, ∀ rest, closeVariant (blanks.text ++
      ((members.map Member.text).flatMap (',' :: ·) ++ '\x7d' :: rest)) =
        (fun _ => rest) <$> x := by
  cases members with
  | nil =>
    refine ⟨.ok (), fun rest => ?_⟩
    rw [closeVariant, blanks.skipBlanks_append]
    rfl
  | cons m members =>
    refine ⟨.error .expectedValue, fun rest => ?_⟩
    rw [closeVariant, blanks.skipBlanks_append]
    rfl

/-- The object form is read, or refused, for its first member and for whether there are more. -/
theorem exists_readVariant {m : Member} (members : List Member) (hkey : IsBody m.key)
    (hvalue : IsValue m.item.value) :
    ∃ x : Except ReadError Origin, ∀ rest, readVariant (m.text ++
      ((members.map Member.text).flatMap (',' :: ·) ++ '\x7d' :: rest)) =
        (fun origin => (origin, rest)) <$> x := by
  obtain ⟨y, hy⟩ := Reader.decisive_unit.settles hvalue
  obtain ⟨z, hz⟩ := exists_closeVariant members m.item.after
  refine ⟨do
    let name ← bodyChars m.key
    let origin ← ofChars name
    let () ← y
    let () ← z
    pure origin, fun rest => ?_⟩
  have hends := Reader.endsNumber_flatMap_comma (members.map Member.text) rest
    (show continuesNumber '\x7d' = false by decide)
  have hunit := hy.run_item Reader.stable_unit hends
  rw [readVariant, readKey_member, Member.body, List.append_assoc, List.cons_append,
    List.append_assoc, List.cons_append, readName_body hkey]
  cases bodyChars m.key with
  | error e => rfl
  | ok name =>
    simp only [Functor.map, Except.map, bind, Except.bind]
    cases ofChars name with
    | error e => rfl
    | ok origin =>
      simp only [expectColon_append, hunit]
      cases y with
      | error e => rfl
      | ok =>
        simp only [Functor.map, Except.map, hz]
        cases z <;> rfl

theorem run_reader_of_ne {s tail : List Char} {c : Char} (hs : skipBlanks s = c :: tail)
    (htext : c ≠ '"') (hobject : c ≠ '\x7b') : reader.run s = .error .expectedValue := by
  simp only [reader, hs]
  split
  · next heq => cases heq
  · next heq => exact absurd (List.cons.inj heq).1 htext
  · next heq => exact absurd (List.cons.inj heq).1 hobject
  · rfl

theorem decisive_reader : reader.Decisive where
  toStable := stable_reader
  settles := by
    intro v hv
    have hstart := hv.startsItem
    cases hv with
    | @text body h =>
      refine ⟨bodyChars body >>= ofChars, fun rest _ => ?_⟩
      rw [← readName_body h rest]
      simp only [List.cons_append, List.append_assoc, List.nil_append]
      rfl
    | @object m members hkey hvalue _ _ =>
      obtain ⟨x, hx⟩ := exists_readVariant members hkey hvalue
      refine ⟨x, fun rest _ => ?_⟩
      rw [← hx rest]
      simp only [writeObject, List.map_cons, intercalate_comma_cons, List.cons_append,
        List.append_assoc, List.nil_append]
      rfl
    | emptyObject blanks =>
      refine ⟨.error .expectedValue, fun rest _ => ?_⟩
      have hrun : readKey (blanks.text ++ '\x7d' :: rest) = .error .expectedValue := by
        rw [readKey, blanks.skipBlanks_append]
        rfl
      simp only [List.cons_append, List.append_assoc, List.nil_append]
      change readVariant (blanks.text ++ '\x7d' :: rest) = _
      rw [readVariant, hrun]
      rfl
    | boolean value => cases value <;> exact ⟨.error .expectedValue, fun _ _ => rfl⟩
    | number h =>
      obtain ⟨c, tail, rfl, hc⟩ := h.eq_cons
      exact ⟨.error .expectedValue, fun rest _ =>
        run_reader_of_ne (hstart.skipBlanks_append rest) (ne_of_startsNumber hc (by decide))
          (ne_of_startsNumber hc (by decide))⟩
    | null | emptyArray | array => exact ⟨.error .expectedValue, fun _ _ => rfl⟩

end Origin

theorem Purposes.decisive_codec : Purposes.codec.read.Decisive :=
  (Reader.decisive_chars .purposes).mapOk Purposes.ofChars

namespace EpochOffset

theorem decisive_field (field : Field) : field.codec.read.Decisive := by
  cases field with
  | seconds => exact Reader.decisive_integer _ _
  | nanos => exact Reader.decisive_integer _ _

theorem decisive_codec : codec.read.Decisive := by
  have hrecord : record.toCodec.read.Decisive := Record.decisive_reader decisive_field nofun
  exact Codec.decisive_via hrecord _ _

end EpochOffset

theorem Instant.decisive_codec : Instant.codec.read.Decisive :=
  Codec.decisive_via EpochOffset.decisive_codec ofEpochOffset epochOffset

namespace KeyParams

theorem decisive_field (field : Field) : field.codec.read.Decisive := by
  have hinstant := Instant.decisive_codec.orNull
  have htokens := Reader.decisive_text.list.orNull
  cases field with
  | keyAlias => exact Reader.decisive_text.orNull
  | keySize => exact Reader.decisive_integer _ _
  | insideSecureHardware => exact Reader.decisive_boolean
  | origin => exact Origin.decisive_reader
  | validityStart => exact hinstant
  | originationEnd => exact hinstant
  | consumptionEnd => exact hinstant
  | purposes => exact Purposes.decisive_codec
  | encryptionPaddings => exact htokens
  | signaturePaddings => exact htokens
  | digests => exact htokens
  | blockModes => exact htokens
  | authenticationRequired => exact Reader.decisive_boolean
  | authenticationValidity => exact Reader.decisive_integer _ _
  | authenticationInSecureHardware => exact Reader.decisive_boolean

end KeyParams

end HardwareKeys

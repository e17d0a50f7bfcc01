import HardwareKeys.Descriptor.Json
import HardwareKeys.Proofs.Descriptor.Build
import HardwareKeys.Proofs.Json.Codec

/-!
# Descriptors are read through their parameters

Reading a descriptor is reading a value of parameters, building from it, and looking at the text after it, in this order. What goes wrong first is the error, and building is reported once it has succeeded.
-/

namespace HardwareKeys

open Json

namespace KeyParams

variable {s : String} {p : KeyParams} {rest : List Char}

/-- The value at the front of the text, and the text after it. -/
def readValue (s : String) : Except ReadError (KeyParams × List Char) := codec.read.run s.toList

theorem ofJson_of_readValue_error {e : ReadError} (h : readValue s = .error e) :
    ofJson s = .error e :=
  Codec.readAll_of_run_error h

theorem ofJson_of_readValue (h : readValue s = .ok (p, rest)) :
    ofJson s = (fun _ => p) <$> expectEnd rest :=
  Codec.readAll_of_run h

end KeyParams

namespace Descriptor

variable {s : String} {p : KeyParams} {rest : List Char}

theorem ofJson_of_readValue_error {e : ReadError} (h : KeyParams.readValue s = .error e) :
    ofJson s = ⟨[], .error e⟩ := by
  rw [KeyParams.readValue] at h
  rw [ofJson, h]
  rfl

theorem ofJson_of_noAlias (h : KeyParams.readValue s = .ok (p, rest)) (halias : p.keyAlias = none) :
    ofJson s = ⟨[], .error (.rejected .missingAlias)⟩ := by
  rw [KeyParams.readValue] at h
  rw [ofJson, h]
  dsimp only
  rw [convert, build_of_error (ofParams_of_noAlias halias)]
  rfl

theorem ofJson_of_ofParams {d : Descriptor} (h : KeyParams.readValue s = .ok (p, rest))
    (hbuilt : ofParams p = .ok d) :
    ofJson s = ⟨[d.builtEvent], (fun _ => d) <$> expectEnd rest⟩ := by
  rw [KeyParams.readValue] at h
  rw [ofJson, h]
  dsimp only
  -- The event is there on both sides of the case split: it is reported before the end is looked for.
  rw [convert, build_of_ok hbuilt]
  cases hend : expectEnd rest with
  | error e => simp [bind, Logged.bind, pure, Functor.map, Except.map]
  | ok => simp [bind, Logged.bind, pure, Functor.map, Except.map]

theorem ofJson_eq_ok_iff {d : Descriptor} :
    (ofJson s).value = .ok d ↔ ∃ p, KeyParams.ofJson s = .ok p ∧ ofParams p = .ok d := by
  cases hvalue : KeyParams.readValue s with
  | error e =>
    rw [ofJson_of_readValue_error hvalue, KeyParams.ofJson_of_readValue_error hvalue]
    simp
  | ok value =>
    obtain ⟨p, rest⟩ := value
    rw [KeyParams.ofJson_of_readValue hvalue]
    cases hbuilt : ofParams p with
    | error e =>
      rw [ofJson_of_noAlias hvalue (ofParams_eq_error_iff.mp hbuilt).1]
      constructor
      · rintro ⟨⟩
      · rintro ⟨q, hq, hd⟩
        obtain ⟨-, -, rfl⟩ := map_eq_ok_iff.mp hq
        rw [hbuilt] at hd
        cases hd
    | ok built =>
      rw [ofJson_of_ofParams hvalue hbuilt]
      constructor
      · intro h
        obtain ⟨_, hend, rfl⟩ := map_eq_ok_iff.mp h
        exact ⟨p, map_eq_ok_iff.mpr ⟨_, hend, rfl⟩, hbuilt⟩
      · rintro ⟨q, hq, hd⟩
        obtain ⟨_, hend, rfl⟩ := map_eq_ok_iff.mp hq
        rw [hbuilt] at hd
        cases hd
        exact map_eq_ok_iff.mpr ⟨_, hend, rfl⟩

/-- Reading never gets around building. Of a refused value, a missing alias and text after the value, the first in this order is the error. -/
theorem ofJson_builds (s : String) :
    (∀ d, (ofJson s).value = .ok d ↔
      ∃ p, KeyParams.ofJson s = .ok p ∧ p.keyAlias.isSome = true ∧ ofParams p = .ok d) ∧
    (∀ e, KeyParams.readValue s = .error e →
      KeyParams.ofJson s = .error e ∧ ofJson s = ⟨[], .error e⟩) ∧
    (∀ p rest, KeyParams.readValue s = .ok (p, rest) → p.keyAlias = none →
      ∃ e, ofJson s = ⟨[], .error e⟩ ∧ e.category = .data ∧
        e.message = "Invalid argument: key store alias must be provided") ∧
    (∀ p rest keyAlias, KeyParams.readValue s = .ok (p, rest) → p.keyAlias = some keyAlias →
      (ofJson s).events = [.built keyAlias p.origin p.purposes p.insideSecureHardware] ∧
      ((∀ c ∈ rest, isBlank c = true) → KeyParams.ofJson s = .ok p) ∧
      ((∃ c ∈ rest, isBlank c = false) →
        ∃ e, (ofJson s).value = .error e ∧ e.message = "trailing characters")) := by
  refine ⟨fun d => ?accepted, fun e hvalue => ?refused, fun p rest hvalue halias => ?noAlias,
    fun p rest keyAlias hvalue halias => ?built⟩
  case accepted =>
    rw [ofJson_eq_ok_iff]
    constructor
    · rintro ⟨p, hp, hd⟩
      exact ⟨p, hp, by rw [keyAlias_of_ofParams hd, Option.isSome_some], hd⟩
    · rintro ⟨p, hp, -, hd⟩
      exact ⟨p, hp, hd⟩
  case refused =>
    exact ⟨KeyParams.ofJson_of_readValue_error hvalue, ofJson_of_readValue_error hvalue⟩
  case noAlias =>
    exact ⟨_, ofJson_of_noAlias hvalue halias, rfl, rfl⟩
  case built =>
    obtain ⟨d, hd, rfl, -⟩ := ofParams_of_alias halias
    rw [ofJson_of_ofParams hvalue hd]
    refine ⟨congrArg (fun event => [event]) (builtEvent_of_ofParams hd), ?_, ?_⟩
    · intro hrest
      rw [KeyParams.ofJson_of_readValue hvalue, expectEnd_eq_ok_iff.mpr hrest]
      rfl
    · intro hrest
      have htrailing := expectEnd_eq_error_iff.mpr ⟨hrest, rfl⟩
      exact ⟨.trailingCharacters, by rw [htrailing]; rfl, rfl⟩

end Descriptor

end HardwareKeys

import HardwareKeys.Proofs.Descriptor.RoundTrip
import HardwareKeys.Proofs.Store.Observers

/-!
# Ways to a descriptor

Parameters become a descriptor by being built, by being converted, by a look-up in a store that keeps them, and by being read from a text, be it that of the parameters or that of the descriptor. All these ways lead to the same descriptor, or they fail for want of an alias.
-/

namespace HardwareKeys

open Json

namespace KeyParams

variable {p : KeyParams}

theorem readValue_of_toJson {s : String} (h : p.toJson = .ok s) : readValue s = .ok (p, []) := by
  obtain ⟨text, hwrite, rfl⟩ := map_eq_ok_iff.mp h
  have hreads := lawful_codec.reads hwrite [] endsNumber_nil
  rw [List.append_nil] at hreads
  rw [readValue, String.toList_ofList, hreads]

/-- Filling in lists leaves the instants as they are. -/
theorem avoidsEarliest_withLists : p.withLists.AvoidsEarliest ↔ p.AvoidsEarliest := Iff.rfl

end KeyParams

namespace Descriptor

variable {p : KeyParams} {d : Descriptor}

theorem avoidsEarliest_of_ofParams (hbuilt : ofParams p = .ok d) (h : p.AvoidsEarliest) :
    d.toParams.AvoidsEarliest := by
  rw [ofParams_eq_ok_iff.mp hbuilt]
  exact KeyParams.avoidsEarliest_withLists.mpr h

/-- The text of the parameters and the text of the descriptor are both read as the descriptor. -/
theorem ofJson_texts (hbuilt : ofParams p = .ok d) (h : p.AvoidsEarliest) :
    (∃ s, p.toJson = .ok s ∧ (ofJson s).value = .ok d) ∧
      ∃ s, d.toJson = .ok s ∧ (ofJson s).value = .ok d := by
  obtain ⟨s, hs⟩ := KeyParams.exists_toJson_iff.mpr h
  obtain ⟨t, ht⟩ := KeyParams.exists_toJson_iff.mpr (avoidsEarliest_of_ofParams hbuilt h)
  refine ⟨⟨s, hs, ?_⟩, t, ht, ofJson_of_toJson ht⟩
  exact ofJson_eq_ok_iff.mpr ⟨p, KeyParams.ofJson_of_toJson hs, hbuilt⟩

theorem ofJson_text_of_noAlias (halias : p.keyAlias = none) (h : p.AvoidsEarliest) :
    ∃ s, p.toJson = .ok s ∧ (ofJson s).value = .error (.rejected .missingAlias) := by
  obtain ⟨s, hs⟩ := KeyParams.exists_toJson_iff.mpr h
  refine ⟨s, hs, ?_⟩
  rw [ofJson_of_noAlias (KeyParams.readValue_of_toJson hs) halias]

/-- With an alias all ways lead to one descriptor, and without one all fail for the same reason. The ways through a text are open to parameters that can be written. -/
theorem routes_agree (name : String) (calls : List Store.Call) (p : KeyParams) :
    (∀ keyAlias, p.keyAlias = some keyAlias → ∃ d,
      (build p).value = .ok d ∧
      (convert p).value = .ok d ∧
      (∃ next, ((Store.after name calls).insert p).value = .ok next ∧
        (next.keyInfo keyAlias).value = .ok d) ∧
      (p.AvoidsEarliest →
        (∃ s, p.toJson = .ok s ∧ (ofJson s).value = .ok d) ∧
        ∃ s, d.toJson = .ok s ∧ (ofJson s).value = .ok d)) ∧
    (p.keyAlias = none → ∃ e : KeyError,
      e.message = "Invalid argument: key store alias must be provided" ∧
      (build p).value = .error e ∧
      (convert p).value = .error e ∧
      ((Store.after name calls).insert p).value = .error e ∧
      (p.AvoidsEarliest → ∃ s fault, p.toJson = .ok s ∧ (ofJson s).value = .error fault ∧
        fault.category = .data ∧ fault.message = e.message)) ∧
    ∀ d : Descriptor, d.toJson = d.toParams.toJson := by
  refine ⟨fun keyAlias halias => ?named, fun halias => ?unnamed, fun d => rfl⟩
  case named =>
    obtain ⟨d, hbuilt, -, -⟩ := ofParams_of_alias halias
    have hvalue : (build p).value = .ok d := by rw [value_build, hbuilt]
    refine ⟨d, hvalue, hvalue, ⟨_, by rw [Store.insert_of_alias halias], ?_⟩,
      ofJson_texts hbuilt⟩
    rw [Store.keyInfo_of_entry Std.ExtTreeMap.getElem?_insert_self, hvalue]
  case unnamed =>
    have hvalue : (build p).value = .error .missingAlias := by
      rw [value_build, ofParams_of_noAlias halias]
    refine ⟨.missingAlias, rfl, hvalue, hvalue, by rw [Store.insert_of_noAlias halias],
      fun h => ?_⟩
    obtain ⟨s, hs, hfault⟩ := ofJson_text_of_noAlias halias h
    exact ⟨s, .rejected .missingAlias, hs, hfault, rfl, rfl⟩

end Descriptor

end HardwareKeys

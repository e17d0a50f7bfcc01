import HardwareKeys.Descriptor

/-!
# Building descriptors

A descriptor is its parameters with every list present. Building fails for want of an alias and for nothing else.
-/

namespace HardwareKeys

namespace Descriptor

theorem toParams_injective : Function.Injective toParams := by
  intro d e h
  cases d
  cases e
  simp only [toParams, KeyParams.mk.injEq, Option.some.injEq] at h
  simp only [Descriptor.mk.injEq]
  exact h

theorem ofParams_of_noAlias {p : KeyParams} (h : p.keyAlias = none) :
    ofParams p = .error .missingAlias := by
  rw [ofParams, h]

theorem ofParams_of_alias {p : KeyParams} {keyAlias : String} (h : p.keyAlias = some keyAlias) :
    ∃ d, ofParams p = .ok d ∧ d.keyAlias = keyAlias ∧ d.toParams = p.withLists := by
  rw [ofParams, h]
  refine ⟨_, rfl, rfl, ?_⟩
  simp only [toParams, KeyParams.withLists, ← h]

theorem ofParams_eq_ok_iff {p : KeyParams} {d : Descriptor} :
    ofParams p = .ok d ↔ d.toParams = p.withLists := by
  constructor
  · intro hbuilt
    cases halias : p.keyAlias with
    | none =>
      rw [ofParams_of_noAlias halias] at hbuilt
      cases hbuilt
    | some keyAlias =>
      obtain ⟨built, hd, -, hlists⟩ := ofParams_of_alias halias
      rw [hd] at hbuilt
      rwa [← Except.ok.inj hbuilt]
  · intro hlists
    have halias : p.keyAlias = some d.keyAlias := (congrArg KeyParams.keyAlias hlists).symm
    obtain ⟨built, hd, -, hbuilt⟩ := ofParams_of_alias halias
    rw [hd, toParams_injective (hbuilt.trans hlists.symm)]

theorem ofParams_eq_error_iff {p : KeyParams} {e : KeyError} :
    ofParams p = .error e ↔ p.keyAlias = none ∧ e = .missingAlias := by
  cases halias : p.keyAlias with
  | none =>
    rw [ofParams_of_noAlias halias, Except.error.injEq, eq_comm]
    exact (and_iff_right rfl).symm
  | some keyAlias =>
    obtain ⟨d, hd, -, -⟩ := ofParams_of_alias halias
    rw [hd]
    simp

theorem keyAlias_of_ofParams {p : KeyParams} {d : Descriptor} (h : ofParams p = .ok d) :
    p.keyAlias = some d.keyAlias :=
  (congrArg KeyParams.keyAlias (ofParams_eq_ok_iff.mp h)).symm

/-- Building does not tell an absent list from an empty one. -/
theorem ofParams_withLists (p : KeyParams) : ofParams p.withLists = ofParams p := by
  unfold ofParams KeyParams.withLists
  cases p.keyAlias <;> rfl

theorem builtEvent_of_ofParams {p : KeyParams} {d : Descriptor} (h : ofParams p = .ok d) :
    d.builtEvent = .built d.keyAlias p.origin p.purposes p.insideSecureHardware := by
  have hlists := ofParams_eq_ok_iff.mp h
  have horigin : d.origin = p.origin := congrArg KeyParams.origin hlists
  have hpurposes : d.purposes = p.purposes := congrArg KeyParams.purposes hlists
  have hsecure : d.insideSecureHardware = p.insideSecureHardware :=
    congrArg KeyParams.insideSecureHardware hlists
  rw [builtEvent, horigin, hpurposes, hsecure]

theorem build_of_ok {p : KeyParams} {d : Descriptor} (h : ofParams p = .ok d) :
    build p = ⟨[d.builtEvent], .ok d⟩ := by
  rw [build, h]
  rfl

theorem build_of_error {p : KeyParams} {e : KeyError} (h : ofParams p = .error e) :
    build p = ⟨[], .error e⟩ := by
  rw [build, h]
  rfl

end Descriptor

end HardwareKeys

import HardwareKeys.Proofs.Descriptor.Build

/-!
# Descriptors as normal forms

A descriptor shows its parameters field by field, and an absent list as an empty one; nothing else is changed and nothing is checked but the alias. Two parameters that have one are told apart by their descriptors exactly if they differ with their lists filled in.
-/

namespace HardwareKeys

namespace KeyParams

/-- None of the four token lists is absent. -/
structure HasLists (p : KeyParams) : Prop where
  encryptionPaddings : p.encryptionPaddings.isSome
  signaturePaddings : p.signaturePaddings.isSome
  digests : p.digests.isSome
  blockModes : p.blockModes.isSome

theorem hasLists_withLists (p : KeyParams) : p.withLists.HasLists :=
  ⟨rfl, rfl, rfl, rfl⟩

theorem withLists_of_hasLists {p : KeyParams} (h : p.HasLists) : p.withLists = p := by
  have hfill : ∀ {tokens : Option (List String)},
      tokens.isSome → some (tokens.getD []) = tokens := by
    intro tokens htokens
    obtain ⟨list, rfl⟩ := Option.isSome_iff_exists.mp htokens
    rfl
  unfold withLists
  rw [hfill h.encryptionPaddings, hfill h.signaturePaddings, hfill h.digests, hfill h.blockModes]

theorem withLists_eq_self_iff {p : KeyParams} : p.withLists = p ↔ p.HasLists := by
  constructor
  · intro h
    rw [← h]
    exact p.hasLists_withLists
  · exact withLists_of_hasLists

end KeyParams

namespace Descriptor

/-- Every accessor of the descriptor gives the field of the parameters, an absent list being read as an empty one. -/
structure Shows (d : Descriptor) (p : KeyParams) : Prop where
  keyAlias : p.keyAlias = some d.getKeyAlias
  keySize : d.getKeySize = p.keySize
  insideSecureHardware : d.isInsideSecureHardware = p.insideSecureHardware
  origin : d.getOrigin = p.origin
  validityStart : d.getValidityStart = p.validityStart
  originationEnd : d.getOriginationEnd = p.originationEnd
  consumptionEnd : d.getConsumptionEnd = p.consumptionEnd
  purposes : d.getPurposes = p.purposes
  encryptionPaddings : d.getEncryptionPaddings = p.encryptionPaddings.getD []
  signaturePaddings : d.getSignaturePaddings = p.signaturePaddings.getD []
  digests : d.getDigests = p.digests.getD []
  blockModes : d.getBlockModes = p.blockModes.getD []
  authenticationRequired : d.isAuthenticationRequired = p.authenticationRequired
  authenticationValidity : d.getAuthenticationValidity = p.authenticationValidity
  authenticationInSecureHardware :
    d.isAuthenticationInSecureHardware = p.authenticationInSecureHardware

/-- The one descriptor that shows the parameters is the one whose parameters are theirs with all lists filled in. -/
theorem shows_iff {d : Descriptor} {p : KeyParams} : d.Shows p ↔ d.toParams = p.withLists := by
  constructor
  · intro h
    simp only [toParams, KeyParams.withLists, KeyParams.mk.injEq, Option.some.injEq]
    exact ⟨h.keyAlias.symm, h.keySize, h.insideSecureHardware, h.origin, h.validityStart,
      h.originationEnd, h.consumptionEnd, h.purposes, h.encryptionPaddings, h.signaturePaddings,
      h.digests, h.blockModes, h.authenticationRequired, h.authenticationValidity,
      h.authenticationInSecureHardware⟩
  · intro h
    simp only [toParams, KeyParams.withLists, KeyParams.mk.injEq, Option.some.injEq] at h
    obtain ⟨halias, hsize, hinside, horigin, hstart, horigination, hconsumption, hpurposes,
      hencryption, hsignature, hdigests, hblock, hrequired, hvalidity, hhardware⟩ := h
    exact ⟨halias.symm, hsize, hinside, horigin, hstart, horigination, hconsumption, hpurposes,
      hencryption, hsignature, hdigests, hblock, hrequired, hvalidity, hhardware⟩

theorem ofParams_inj_iff {p q : KeyParams} (hp : p.keyAlias.isSome) :
    ofParams p = ofParams q ↔ p.withLists = q.withLists := by
  obtain ⟨keyAlias, halias⟩ := Option.isSome_iff_exists.mp hp
  obtain ⟨d, hd, -, hparams⟩ := ofParams_of_alias halias
  rw [hd, eq_comm, ofParams_eq_ok_iff, hparams]

/-- Building wants an alias and nothing else, and gives back the parameters with every list present. It reports nothing where it fails, forgets the difference between an absent and an empty list, and forgets no other. -/
theorem build_normalizes :
    (∀ p : KeyParams, ((∃ e, (build p).value = .error e) ↔ p.keyAlias = none) ∧
      (p.keyAlias = none → build p = ⟨[], .error .missingAlias⟩) ∧
      (p.keyAlias.isSome →
        ∃ d, (build p).value = .ok d ∧ d.Shows p ∧ d.toParams = p.withLists ∧
          (d.toParams = p ↔ p.HasLists))) ∧
    (∀ d : Descriptor, (build d.toParams).value = .ok d) ∧
    ∀ p q : KeyParams, p.keyAlias.isSome →
      ((build p).value = (build q).value ↔ p.withLists = q.withLists) := by
  refine ⟨fun p => ⟨?fails, ?reports, ?shows⟩, fun d => ?rebuilt, fun p q hp => ?compared⟩
  case fails =>
    simp only [value_build, ofParams_eq_error_iff]
    exact ⟨fun ⟨_, halias, _⟩ => halias, fun halias => ⟨_, halias, rfl⟩⟩
  case reports =>
    intro halias
    exact build_of_error (ofParams_of_noAlias halias)
  case shows =>
    intro halias
    obtain ⟨keyAlias, halias⟩ := Option.isSome_iff_exists.mp halias
    obtain ⟨d, hd, -, hparams⟩ := ofParams_of_alias halias
    refine ⟨d, by rw [value_build, hd], shows_iff.mpr hparams, hparams, ?_⟩
    rw [hparams]
    exact KeyParams.withLists_eq_self_iff
  case rebuilt => rw [value_build, ofParams_toParams]
  case compared =>
    rw [value_build, value_build]
    exact ofParams_inj_iff hp

/-- Parameters with a repeated token and three absent lists. -/
def repeatedToken : KeyParams := { keyAlias := some "", digests := some ["b", "a", "b"] }

theorem build_repeatedToken : repeatedToken.keyAlias.isSome ∧
    (∃ d, (build repeatedToken).value = .ok d ∧ d.Shows repeatedToken ∧
      d.toParams ≠ repeatedToken) ∧
    (build repeatedToken).value = (build repeatedToken.withLists).value ∧
    (build repeatedToken).value ≠
      (build { repeatedToken with digests := some ["a", "b", "b"] }).value := by
  obtain ⟨hbuilds, -, hcompares⟩ := build_normalizes
  obtain ⟨d, hd, hshows, -, hback⟩ := (hbuilds repeatedToken).2.2 rfl
  refine ⟨rfl, ⟨d, hd, hshows, fun heq => ?_⟩, (hcompares _ _ rfl).mpr rfl, fun heq => ?_⟩
  · exact absurd (hback.mp heq).blockModes (by decide)
  · exact absurd ((hcompares _ _ rfl).mp heq) (by decide)

end Descriptor

end HardwareKeys

import HardwareKeys.Proofs.Instant.Floor
import HardwareKeys.Proofs.Json.Mentions
import HardwareKeys.Proofs.KeyParams.Codec

/-!
# Normalized offsets

An offset is normalized when its nanoseconds are less than a second. The normalized offsets, and no others, lead to instants: to every instant exactly one, at the very count of the offset. On the way the whole seconds come first, which may lead down to the earliest instant but not past it. In JSON, texts that are read as the same instant therefore hold the same offset.
-/

namespace HardwareKeys

open Json

namespace EpochOffset

/-- The instant that lies the whole seconds of the offset from the epoch. -/
def wholeSeconds? (offset : EpochOffset) : Option Instant :=
  let whole := Duration.ofSeconds (.ofNat offset.seconds.toInt.natAbs)
  if 0 ≤ offset.seconds then Instant.epoch.add? whole else Instant.epoch.sub? whole

theorem wholeSeconds?_eq (offset : EpochOffset) : offset.wholeSeconds? = some offset.start := by
  by_cases hsign : 0 ≤ offset.seconds
  · rw [wholeSeconds?, if_pos hsign, epoch_add? hsign]
  · rw [wholeSeconds?, if_neg hsign, epoch_sub? hsign]

theorem toInstant?_eq_bind {offset : EpochOffset} (h : offset.nanos.toNat < nanosPerSecond) :
    offset.toInstant? =
      offset.wholeSeconds?.bind fun start => start.add? (.ofNanos offset.nanos h) := by
  rw [toInstant?, dif_pos h, wholeSeconds?]
  by_cases hsign : 0 ≤ offset.seconds
  · simp only [if_pos hsign, Option.bind_eq_bind]
  · simp only [if_neg hsign, Option.bind_eq_bind]

theorem exists_toInstant?_iff {offset : EpochOffset} :
    (∃ t, offset.toInstant? = some t) ↔ offset.nanos.toNat < nanosPerSecond := by
  constructor
  · rintro ⟨t, ht⟩
    rw [← toInstant?_eq_some_iff.mp ht]
    exact t.nanos_lt
  · intro h
    exact ⟨_, toInstant?_of_nanos_lt h⟩

theorem toNanos_of_toInstant? {offset : EpochOffset} {t : Instant}
    (h : offset.toInstant? = some t) : t.toNanos = offset.toNanos := by
  rw [← toInstant?_eq_some_iff.mp h]
  rfl

/-- The offset of an instant is made of its own parts. -/
theorem existsUnique_toInstant? (t : Instant) :
    ∃! offset : EpochOffset, offset.toInstant? = some t := by
  refine ⟨t.parts, toInstant?_eq_some_iff.mpr rfl, fun offset hoffset => ?_⟩
  exact (toInstant?_eq_some_iff.mp hoffset).symm

theorem readAll_ne_ok_of_null {s tail : List Char} (h : skipBlanks s = 'n' :: tail)
    (offset : EpochOffset) : codec.readAll s ≠ .ok offset := by
  intro hread
  obtain ⟨full, hfull, -⟩ := Codec.readAll_via_eq_ok_iff.mp hread
  obtain ⟨rest, hrun, -⟩ := Codec.readAll_eq_ok_iff.mp hfull
  have hwrong := Record.run_reader_of_ne (R := record) h (by decide) (by decide)
  cases hwrong.symm.trans hrun

end EpochOffset

namespace Instant

theorem readAll_eq_ok_some_iff {s : List Char} {t : Instant} :
    codec.orNull.readAll s = .ok (some t) ↔
      ∃ offset, EpochOffset.codec.readAll s = .ok offset ∧ offset.toInstant? = some t := by
  have hdecode : ∀ {offset : EpochOffset}, ofEpochOffset offset = .ok t ↔
      offset.toInstant? = some t := by
    intro offset
    rw [ofEpochOffset_eq_ok_iff, EpochOffset.toInstant?_eq_some_iff]
  by_cases hnull : ∃ tail, skipBlanks s = 'n' :: tail
  · obtain ⟨tail, htail⟩ := hnull
    constructor
    · intro h
      exact absurd h (Codec.readAll_orNull_ne_some htail t)
    · rintro ⟨offset, hoffset, -⟩
      exact absurd hoffset (EpochOffset.readAll_ne_ok_of_null htail offset)
  · rw [Codec.readAll_orNull_of_ne (not_exists.mp hnull), map_eq_ok_iff]
    simp only [Option.some.injEq, exists_eq_right, codec, Codec.readAll_via_eq_ok_iff, hdecode]

theorem readAll_eq_offsetOutOfRange {s : List Char} {offset : EpochOffset}
    (h : EpochOffset.codec.readAll s = .ok offset) (hnone : offset.toInstant? = none) :
    codec.orNull.readAll s = .error .offsetOutOfRange := by
  have hne : ∀ tail, skipBlanks s ≠ 'n' :: tail := fun tail htail =>
    EpochOffset.readAll_ne_ok_of_null htail offset h
  have hdecode : ofEpochOffset offset = .error .offsetOutOfRange := by
    rw [ofEpochOffset, hnone]
  rw [Codec.readAll_orNull_of_ne hne, codec, Codec.readAll_via_of_error h hdecode]
  rfl

end Instant

namespace EpochOffset

/-- The normalized offsets lead one to one to the instants. Both steps from the epoch are exact and neither fails, and what is read from JSON is an instant exactly if the offset it holds is normalized, so two texts of one instant hold one offset. -/
theorem toInstant?_bijective :
    (∀ offset : EpochOffset,
      (∃ t, offset.toInstant? = some t) ↔ offset.nanos.toNat < nanosPerSecond) ∧
    (∀ (offset : EpochOffset) (t : Instant), offset.toInstant? = some t →
      t.toNanos = offset.seconds.toInt * nanosPerSecond + offset.nanos.toNat) ∧
    (∀ (offset : EpochOffset) (h : offset.nanos.toNat < nanosPerSecond),
      offset.toInstant? =
        offset.wholeSeconds?.bind (fun start => start.add? (.ofNanos offset.nanos h)) ∧
      ∃ start t, offset.wholeSeconds? = some start ∧
        start.toNanos = offset.seconds.toInt * nanosPerSecond ∧
          start.add? (.ofNanos offset.nanos h) = some t) ∧
    (∀ t : Instant, ∃! offset : EpochOffset, offset.toInstant? = some t) ∧
    (∀ (s : List Char) (offset : EpochOffset), codec.readAll s = .ok offset →
      (∀ t, Instant.codec.orNull.readAll s = .ok (some t) ↔ offset.toInstant? = some t) ∧
      (offset.toInstant? = none →
        Instant.codec.orNull.readAll s = .error .offsetOutOfRange)) ∧
    ∀ (s s' : List Char) (t : Instant), Instant.codec.orNull.readAll s = .ok (some t) →
      Instant.codec.orNull.readAll s' = .ok (some t) →
        ∃ offset, codec.readAll s = .ok offset ∧ codec.readAll s' = .ok offset := by
  refine ⟨fun _ => exists_toInstant?_iff, fun _ _ => toNanos_of_toInstant?,
    fun offset h => ⟨toInstant?_eq_bind h, ?steps⟩, existsUnique_toInstant?,
    fun s offset hread => ⟨fun t => ?read, Instant.readAll_eq_offsetOutOfRange hread⟩,
    fun s s' t hs hs' => ?same⟩
  case steps =>
    exact ⟨offset.start, _, offset.wholeSeconds?_eq, offset.toNanos_start, start_add? h⟩
  case read =>
    rw [Instant.readAll_eq_ok_some_iff]
    constructor
    · rintro ⟨found, hfound, ht⟩
      obtain rfl : offset = found := Except.ok.inj (hread.symm.trans hfound)
      exact ht
    · intro ht
      exact ⟨offset, hread, ht⟩
  case same =>
    obtain ⟨offset, hread, ht⟩ := Instant.readAll_eq_ok_some_iff.mp hs
    obtain ⟨offset', hread', ht'⟩ := Instant.readAll_eq_ok_some_iff.mp hs'
    obtain rfl : offset = offset' := (existsUnique_toInstant? t).unique ht ht'
    exact ⟨offset, hread, hread'⟩

theorem toInstant?_extremes :
    (∃ t, (⟨Int64.minValue, 999999999⟩ : EpochOffset).toInstant? = some t ∧
      t.toNanos = -9223372036854775808000000000 + 999999999) ∧
    (∃ t, (⟨Int64.maxValue, 999999999⟩ : EpochOffset).toInstant? = some t ∧
      t.toNanos = 9223372036854775807000000000 + 999999999) ∧
    ∃ s, codec.readAll s = .ok ⟨5, 1000000000⟩ ∧
      Instant.codec.orNull.readAll s = .error .offsetOutOfRange := by
  obtain ⟨hnormal, hcount, -, -, hread, -⟩ := toInstant?_bijective
  refine ⟨?_, ?_, ?_⟩
  · obtain ⟨t, ht⟩ := (hnormal ⟨Int64.minValue, 999999999⟩).mpr (by decide)
    exact ⟨t, ht, (hcount _ t ht).trans (by decide)⟩
  · obtain ⟨t, ht⟩ := (hnormal ⟨Int64.maxValue, 999999999⟩).mpr (by decide)
    exact ⟨t, ht, (hcount _ t ht).trans (by decide)⟩
  · obtain ⟨s, hs⟩ := writes_codec ⟨5, 1000000000⟩
    have hoffset := Codec.readAll_of_reads (lawful_codec.reads hs)
    exact ⟨s, hoffset, (hread s _ hoffset).2 (by decide)⟩

end EpochOffset

end HardwareKeys

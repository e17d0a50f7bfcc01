import HardwareKeys.Instant.EpochOffset

/-!
# Instants and epoch offsets

Instants are counted in nanoseconds from the epoch. Sums and differences are exact in that count, and so are both directions of the epoch offset: the offset of an instant is its pair of parts, except that the distance of the earliest instant has no signed seconds.
-/

namespace HardwareKeys

/-- Only the least word has a negation that wraps. -/
theorem toInt_neg_of_ne_minValue {n : Int64} (h : n ≠ Int64.minValue) : (-n).toInt = -n.toInt := by
  have hle := n.le_toInt
  have hlt := n.toInt_lt
  have hne : n.toInt ≠ Int64.minValue.toInt := fun heq => h (Int64.toInt_inj.mp heq)
  rw [Int64.toInt_minValue] at hne
  rw [Int64.toInt_neg, Int.bmod_eq_of_le (by omega) (by omega)]

theorem exists_toInt_eq {n : Int} (hlow : Int64.minValue.toInt ≤ n)
    (hhigh : n ≤ Int64.maxValue.toInt) : ∃ word : Int64, word.toInt = n := by
  rw [Int64.toInt_minValue] at hlow
  rw [Int64.toInt_maxValue] at hhigh
  exact ⟨.ofInt n, Int64.toInt_ofInt_of_le hlow (by omega)⟩

/-- The words of a distance hold what they are given: its seconds fit an unsigned word. -/
theorem toNat_ofNat_toNat {n : Int} (hlow : 0 ≤ n) (hhigh : n ≤ -Int64.minValue.toInt) :
    ((UInt64.ofNat n.toNat).toNat : Int) = n := by
  have hmin := Int64.toInt_minValue
  have hsize : UInt64.size = 18446744073709551616 := rfl
  rw [UInt64.toNat_ofNat_of_lt' (by omega), Int.toNat_of_nonneg hlow]

theorem toNat_ofNat_remainder {nanos : UInt32} (h : nanos.toNat < nanosPerSecond) :
    (UInt32.ofNat (nanosPerSecond - nanos.toNat)).toNat = nanosPerSecond - nanos.toNat := by
  have hsize : nanosPerSecond < UInt32.size := by decide
  exact UInt32.toNat_ofNat_of_lt' (by omega)

theorem toNat_remainder {nanos : UInt32} (h : nanos.toNat ≤ nanosPerSecond) :
    (UInt32.ofNat nanosPerSecond - nanos).toNat = nanosPerSecond - nanos.toNat := by
  have hsecond : (UInt32.ofNat nanosPerSecond).toNat = nanosPerSecond := rfl
  have hbelow : nanos ≤ .ofNat nanosPerSecond := by
    rw [UInt32.le_iff_toNat_le, hsecond]
    exact h
  rw [UInt32.toNat_sub_of_le _ _ hbelow, hsecond]

def Duration.toNanos (d : Duration) : Int := d.seconds.toNat * nanosPerSecond + d.nanos.toNat

namespace Instant

/-- The offset that repeats the seconds and the nanoseconds of the instant. -/
def parts (t : Instant) : EpochOffset := ⟨t.seconds, t.nanos⟩

theorem ext_parts {t u : Instant} (h : t.parts = u.parts) : t = u := by
  obtain ⟨hseconds, hnanos⟩ := EpochOffset.mk.inj h
  cases t
  cases u
  cases hseconds
  cases hnanos
  rfl

theorem eq_toNanos_iff {seconds : Int} {nanos : Nat} (h : nanos < nanosPerSecond) {t : Instant} :
    seconds * nanosPerSecond + nanos = t.toNanos ↔
      seconds = t.seconds.toInt ∧ nanos = t.nanos.toNat := by
  have hnanos := t.nanos_lt
  simp only [toNanos, nanosPerSecond] at *
  omega

theorem toNanos_injective : Function.Injective toNanos := by
  intro t u h
  obtain ⟨hseconds, hnanos⟩ := (eq_toNanos_iff t.nanos_lt).mp h
  apply ext_parts
  rw [parts, parts, Int64.toInt_inj.mp hseconds, UInt32.toNat_inj.mp hnanos]

theorem toNanos_mk (seconds : Int64) {n : Nat} (h : n < nanosPerSecond) :
    (Instant.mk seconds (.ofNat n) (ofNat_nanos_lt h)).toNanos =
      seconds.toInt * nanosPerSecond + n := by
  have hsize : n < UInt32.size := Nat.lt_trans h (by decide)
  rw [toNanos, UInt32.toNat_ofNat_of_lt' hsize]

theorem ofParts?_eq_some_iff {seconds : Int} {nanos : Nat} {h : nanos < 2 * nanosPerSecond}
    {t : Instant} :
    ofParts? seconds nanos h = some t ↔ seconds * nanosPerSecond + nanos = t.toNanos := by
  have hmake : ∀ (whole : Int) (rest : Nat) (hrest : rest < nanosPerSecond),
      (int64? whole >>= fun s => some (Instant.mk s (.ofNat rest) (ofNat_nanos_lt hrest))) =
        some t ↔ whole * nanosPerSecond + rest = t.toNanos := by
    intro whole rest hrest
    rw [Option.bind_eq_bind, Option.bind_eq_some_iff]
    constructor
    · rintro ⟨s, hs, heq⟩
      rw [← Option.some.inj heq, toNanos_mk s hrest, int64?_eq_some_iff.mp hs]
    · intro hcount
      obtain ⟨hwhole, -⟩ := (eq_toNanos_iff hrest).mp hcount
      refine ⟨t.seconds, int64?_eq_some_iff.mpr hwhole, congrArg some ?_⟩
      apply toNanos_injective
      rw [toNanos_mk t.seconds hrest, ← hwhole, hcount]
  unfold ofParts?
  split
  · next hn => exact hmake seconds nanos hn
  · next hn =>
    have hcarry : (seconds + 1) * nanosPerSecond + ((nanos - nanosPerSecond : Nat) : Int) =
        seconds * nanosPerSecond + nanos := by
      rw [Int.add_mul, Int.ofNat_sub (Nat.le_of_not_lt hn)]
      omega
    rw [← hcarry]
    exact hmake (seconds + 1) (nanos - nanosPerSecond) (by omega)

theorem add?_eq_some_iff {t u : Instant} {d : Duration} :
    t.add? d = some u ↔ t.toNanos + d.toNanos = u.toNanos := by
  have hcount : (t.seconds.toInt + d.seconds.toNat) * nanosPerSecond +
      ((t.nanos.toNat + d.nanos.toNat : Nat) : Int) = t.toNanos + d.toNanos := by
    rw [toNanos, Duration.toNanos, Int.add_mul]
    omega
  rw [add?, ofParts?_eq_some_iff, hcount]

theorem sub?_eq_some_iff {t u : Instant} {d : Duration} :
    t.sub? d = some u ↔ t.toNanos - d.toNanos = u.toNanos := by
  have hcount : (t.seconds.toInt - d.seconds.toNat - 1) * nanosPerSecond +
      ((t.nanos.toNat + (nanosPerSecond - d.nanos.toNat) : Nat) : Int) =
        t.toNanos - d.toNanos := by
    have hnanos := d.nanos_lt
    rw [toNanos, Duration.toNanos, Int.sub_mul, Int.sub_mul]
    omega
  rw [sub?, ofParts?_eq_some_iff, hcount]

end Instant

/-! ### From an offset to an instant -/

namespace EpochOffset

theorem toNanos_ofSeconds_natAbs (seconds : Int64) :
    (Duration.ofSeconds (.ofNat seconds.toInt.natAbs)).toNanos =
      seconds.toInt.natAbs * nanosPerSecond := by
  have hle := seconds.le_toInt
  have hlt := seconds.toInt_lt
  have hsize : seconds.toInt.natAbs < UInt64.size := by
    have : UInt64.size = 18446744073709551616 := rfl
    omega
  rw [Duration.toNanos, Duration.ofSeconds, UInt64.toNat_ofNat_of_lt' hsize]
  simp

def start (offset : EpochOffset) : Instant := ⟨offset.seconds, 0, Instant.epoch.nanos_lt⟩

theorem toNanos_start (offset : EpochOffset) :
    offset.start.toNanos = offset.seconds.toInt * nanosPerSecond := by
  simp [start, Instant.toNanos]

theorem epoch_add? {offset : EpochOffset} (h : 0 ≤ offset.seconds) :
    Instant.epoch.add? (.ofSeconds (.ofNat offset.seconds.toInt.natAbs)) = some offset.start := by
  have hnonneg : 0 ≤ offset.seconds.toInt := Int64.le_iff_toInt_le.mp h
  have hepoch : Instant.epoch.toNanos = 0 := rfl
  rw [Instant.add?_eq_some_iff, toNanos_ofSeconds_natAbs, hepoch, toNanos_start,
    Int.natAbs_of_nonneg hnonneg, Int.zero_add]

theorem epoch_sub? {offset : EpochOffset} (h : ¬0 ≤ offset.seconds) :
    Instant.epoch.sub? (.ofSeconds (.ofNat offset.seconds.toInt.natAbs)) = some offset.start := by
  have hneg : offset.seconds.toInt < 0 :=
    Int.lt_of_not_ge fun hnonneg => h (Int64.le_iff_toInt_le.mpr hnonneg)
  have hepoch : Instant.epoch.toNanos = 0 := rfl
  rw [Instant.sub?_eq_some_iff, toNanos_ofSeconds_natAbs, hepoch, toNanos_start,
    Int.ofNat_natAbs_of_nonpos (Int.le_of_lt hneg), Int.neg_mul]
  omega

theorem start_add? {offset : EpochOffset} (h : offset.nanos.toNat < nanosPerSecond) :
    offset.start.add? (.ofNanos offset.nanos h) = some ⟨offset.seconds, offset.nanos, h⟩ := by
  rw [Instant.add?_eq_some_iff, toNanos_start]
  simp [Instant.toNanos, Duration.toNanos, Duration.ofNanos]

theorem toInstant?_of_nanos_lt {offset : EpochOffset} (h : offset.nanos.toNat < nanosPerSecond) :
    offset.toInstant? = some ⟨offset.seconds, offset.nanos, h⟩ := by
  -- The whole seconds alone lead to `start`, from where less than a second remains.
  rw [toInstant?, dif_pos h]
  by_cases hsign : 0 ≤ offset.seconds
  · simp [hsign, epoch_add? hsign, start_add? h]
  · simp [hsign, epoch_sub? hsign, start_add? h]

theorem toInstant?_eq_some_iff {offset : EpochOffset} {t : Instant} :
    offset.toInstant? = some t ↔ t.parts = offset := by
  constructor
  · intro ht
    by_cases h : offset.nanos.toNat < nanosPerSecond
    · rw [toInstant?_of_nanos_lt h] at ht
      rw [← Option.some.inj ht]
      rfl
    · rw [toInstant?, dif_neg h] at ht
      cases ht
  · rintro rfl
    exact toInstant?_of_nanos_lt t.nanos_lt

end EpochOffset

/-! ### From an instant to an offset -/

namespace Instant

theorem toEpochOffset?_earliest : earliest.toEpochOffset? = none := by
  decide

theorem toEpochOffset?_of_nonneg {t : Instant} (h : 0 ≤ t.seconds) :
    t.toEpochOffset? = some t.parts := by
  have hnonneg : 0 ≤ t.seconds.toInt := Int64.le_iff_toInt_le.mp h
  have hlt := t.seconds.toInt_lt
  have hmin := Int64.toInt_minValue
  have hseconds : int64? (UInt64.ofNat t.seconds.toInt.toNat).toNat = some t.seconds := by
    rw [toNat_ofNat_toNat hnonneg (by omega), int64?_eq_some_iff]
  rw [toEpochOffset?, distance, if_pos h]
  dsimp only
  rw [hseconds]
  rfl

section BeforeEpoch

variable {t : Instant} (h : ¬0 ≤ t.seconds)

include h

theorem seconds_neg : t.seconds.toInt < 0 :=
  Int.lt_of_not_ge fun hnonneg => h (Int64.le_iff_toInt_le.mpr hnonneg)

theorem toEpochOffset?_of_whole (hnanos : t.nanos = 0) (hearliest : t ≠ earliest) :
    t.toEpochOffset? = some t.parts := by
  have hneg := seconds_neg h
  have hle := t.seconds.le_toInt
  -- Seconds whose negation wraps, without nanoseconds, are the earliest instant.
  have hmin : t.seconds ≠ Int64.minValue := by
    intro hmin
    apply hearliest
    apply ext_parts
    rw [parts, parts, hmin, hnanos]
    rfl
  have hleast := Int64.toInt_minValue
  have hseconds : int64? (UInt64.ofNat (-t.seconds.toInt).toNat).toNat = some (-t.seconds) := by
    rw [toNat_ofNat_toNat (by omega) (by omega), int64?_eq_some_iff, toInt_neg_of_ne_minValue hmin]
  rw [toEpochOffset?, distance, if_neg h, dif_pos hnanos]
  dsimp only [Duration.ofSeconds]
  rw [hseconds, Option.bind_eq_bind, Option.bind_some, if_pos rfl, Int64.neg_neg, parts, hnanos]
  rfl

theorem toEpochOffset?_of_part (hnanos : t.nanos ≠ 0) :
    t.toEpochOffset? = some t.parts := by
  have hneg := seconds_neg h
  have hle := t.seconds.le_toInt
  have hmin := Int64.toInt_minValue
  have hmax := Int64.toInt_maxValue
  have hlt := t.nanos_lt
  have hpos : 0 < t.nanos.toNat :=
    Nat.pos_of_ne_zero fun hzero => hnanos (UInt32.toNat_inj.mp hzero)
  -- The distance is counted from the second above, so it fits; the floor takes that second back.
  obtain ⟨whole, hwhole⟩ := exists_toInt_eq (n := -t.seconds.toInt - 1) (by omega) (by omega)
  obtain ⟨above, habove⟩ := exists_toInt_eq (n := t.seconds.toInt + 1) (by omega) (by omega)
  have hseconds : int64? (UInt64.ofNat (-t.seconds.toInt - 1).toNat).toNat = some whole := by
    rw [toNat_ofNat_toNat (by omega) (by omega), int64?_eq_some_iff, hwhole]
  have hnegated : int64? (-whole.toInt) = some above := by
    rw [int64?_eq_some_iff, hwhole, habove]
    omega
  have hfloor : int64? (above.toInt - 1) = some t.seconds := by
    rw [int64?_eq_some_iff, habove]
    omega
  have hrest := toNat_ofNat_remainder hlt
  have hnonzero : UInt32.ofNat (nanosPerSecond - t.nanos.toNat) ≠ 0 := by
    intro hzero
    rw [hzero, UInt32.toNat_zero] at hrest
    omega
  have hback : UInt32.ofNat nanosPerSecond - UInt32.ofNat (nanosPerSecond - t.nanos.toNat) =
      t.nanos := by
    rw [← UInt32.toNat_inj, toNat_remainder (by omega), hrest]
    omega
  rw [toEpochOffset?, distance, if_neg h, dif_neg hnanos]
  dsimp only
  rw [hseconds, Option.bind_eq_bind, Option.bind_some, if_neg hnonzero, hnegated,
    Option.bind_some, hfloor, hback]
  rfl

end BeforeEpoch

/-- Every instant but the earliest has an offset, which holds its own parts. -/
theorem toEpochOffset?_eq_some {t : Instant} (h : t ≠ earliest) :
    t.toEpochOffset? = some t.parts := by
  by_cases hsign : 0 ≤ t.seconds
  · exact toEpochOffset?_of_nonneg hsign
  by_cases hnanos : t.nanos = 0
  · exact toEpochOffset?_of_whole hsign hnanos h
  · exact toEpochOffset?_of_part hsign hnanos

theorem toEpochOffset?_eq_some_iff {t : Instant} {offset : EpochOffset} :
    t.toEpochOffset? = some offset ↔ t ≠ earliest ∧ t.parts = offset := by
  by_cases h : t = earliest
  · rw [h, toEpochOffset?_earliest]
    simp
  · rw [toEpochOffset?_eq_some h, Option.some.injEq]
    exact (and_iff_right h).symm

end Instant

end HardwareKeys

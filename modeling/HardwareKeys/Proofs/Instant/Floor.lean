import Mathlib.Data.Prod.Lex
import HardwareKeys.Proofs.Instant

/-!
# Offsets as floored counts

The offset of an instant counts the same nanoseconds from the epoch as the instant does, on either side of it. Before the epoch the count is turned from a distance, which has no sign, into whole seconds rounded down and what remains of the last one. The words on that way never wrap: seconds that fit a signed word as a distance have a negation, and a second below it is still a word. Rounding down keeps the order, so offsets compare like the instants they stand for.
-/

namespace HardwareKeys

/-- The nanoseconds from the epoch that an offset counts. -/
def EpochOffset.toNanos (offset : EpochOffset) : Int :=
  offset.seconds.toInt * nanosPerSecond + offset.nanos.toNat

namespace Instant

/-- A distance with the sign of its side. -/
def Distance.toNanos : Distance → Int
  | after d => d.toNanos
  | before d => -d.toNanos

theorem toNanos_distance (t : Instant) : t.distance.toNanos = t.toNanos := by
  have hle := t.seconds.le_toInt
  have hlt := t.seconds.toInt_lt
  have hmin := Int64.toInt_minValue
  unfold distance
  split
  · next hsign =>
    have hnonneg : 0 ≤ t.seconds.toInt := Int64.le_iff_toInt_le.mp hsign
    rw [Distance.toNanos, Duration.toNanos, toNat_ofNat_toNat hnonneg (by omega), toNanos]
  · next hsign =>
    have hneg := seconds_neg hsign
    split
    · next hnanos =>
      rw [Distance.toNanos, Duration.toNanos, Duration.ofSeconds,
        toNat_ofNat_toNat (by omega) (by omega), toNanos, hnanos, Int.neg_mul]
      simp
    · next hnanos =>
      have hrest := toNat_ofNat_remainder t.nanos_lt
      have hnanos := t.nanos_lt
      rw [Distance.toNanos, Duration.toNanos, toNat_ofNat_toNat (by omega) (by omega), hrest,
        toNanos, Int.sub_mul, Int.neg_mul]
      omega

/-- The words that lead from a distance before the epoch to its offset: neither of the plain operations wraps, and both of the checked ones succeed. -/
structure StaysInRange (d : Duration) (seconds : Int64) : Prop where
  negation : (-seconds).toInt = -seconds.toInt
  remainder : ((UInt32.ofNat nanosPerSecond - d.nanos).toNat : Int) =
    nanosPerSecond - d.nanos.toNat
  floor : ∃ negated floor : Int64, int64? (-seconds.toInt) = some negated ∧
    int64? (negated.toInt - 1) = some floor

theorem staysInRange {d : Duration} {seconds : Int64}
    (h : int64? d.seconds.toNat = some seconds) : StaysInRange d seconds := by
  have hseconds := int64?_eq_some_iff.mp h
  have hlt := seconds.toInt_lt
  have hmin := Int64.toInt_minValue
  have hmax := Int64.toInt_maxValue
  -- Seconds of a distance have no sign, so the one word whose negation wraps is not among them.
  have hne : seconds ≠ Int64.minValue := by
    intro heq
    rw [heq] at hseconds
    omega
  have hnegation := toInt_neg_of_ne_minValue hne
  obtain ⟨floor, hfloor⟩ := exists_toInt_eq (n := -seconds.toInt - 1) (by omega) (by omega)
  refine ⟨hnegation, ?_, -seconds, floor, ?_, ?_⟩
  · have hnanos := d.nanos_lt
    rw [toNat_remainder (Nat.le_of_lt hnanos)]
    omega
  · rw [int64?_eq_some_iff, hnegation]
  · rw [int64?_eq_some_iff, hnegation, hfloor]

/-- The offset with every step on the way to it checked, also the negation and the difference that are not checked in `toEpochOffset?`. -/
def toEpochOffsetChecked? (t : Instant) : Option EpochOffset :=
  match t.distance with
  | .after d => do
    let seconds ← int64? d.seconds.toNat
    pure ⟨seconds, d.nanos⟩
  | .before d => do
    let seconds ← int64? d.seconds.toNat
    let negated ← int64? (-seconds.toInt)
    if d.nanos = 0 then pure ⟨negated, 0⟩
    else
      let floor ← int64? (negated.toInt - 1)
      let rest ← word32? (nanosPerSecond - d.nanos.toNat)
      pure ⟨floor, rest⟩

/-- No step fails for being checked, so none of those that are not checked wraps. -/
theorem toEpochOffsetChecked?_eq (t : Instant) : t.toEpochOffsetChecked? = t.toEpochOffset? := by
  rw [toEpochOffsetChecked?, toEpochOffset?]
  cases t.distance with
  | after d => rfl
  | before d =>
    dsimp only
    cases hseconds : int64? d.seconds.toNat with
    | none => rfl
    | some seconds =>
      have hrange := staysInRange hseconds
      have hnegated : int64? (-seconds.toInt) = some (-seconds) := by
        rw [int64?_eq_some_iff, hrange.negation]
      have hrest : word32? (nanosPerSecond - d.nanos.toNat) =
          some (.ofNat nanosPerSecond - d.nanos) := by
        rw [word32?_eq_some_iff, hrange.remainder]
      simp only [Option.bind_eq_bind, Option.bind_some, hnegated, hrest]

/-- Instants are ordered by their seconds, and within a second by their nanoseconds. -/
theorem toNanos_lt_iff {t u : Instant} :
    t.toNanos < u.toNanos ↔ toLex (t.seconds, t.nanos) < toLex (u.seconds, u.nanos) := by
  have ht := t.nanos_lt
  have hu := u.nanos_lt
  rw [Prod.Lex.toLex_lt_toLex, Int64.lt_iff_toInt_lt, UInt32.lt_iff_toNat_lt, ← Int64.toInt_inj]
  simp only [toNanos, nanosPerSecond] at *
  omega

/-- Every instant but the earliest has an offset, which counts the same nanoseconds with the seconds rounded down, leads back to the instant and compares as the instant does. On the way to it nothing wraps, so that it could be checked at every step, and no checked step fails but the first, which only the earliest instant does not pass. -/
theorem toEpochOffset?_floors :
    (∀ t : Instant, t.distance.toNanos = t.toNanos) ∧
    (∀ t ≠ earliest, ∃ offset, t.toEpochOffset? = some offset ∧
      offset.nanos.toNat < nanosPerSecond ∧ offset.toNanos = t.toNanos ∧
        offset.toInstant? = some t) ∧
    (∀ t : Instant, t.toEpochOffset? = none ↔ t = earliest) ∧
    (∀ (t : Instant) (d : Duration) (seconds : Int64), t.distance = .before d →
      int64? d.seconds.toNat = some seconds → StaysInRange d seconds) ∧
    (∀ t : Instant, t.toEpochOffsetChecked? = t.toEpochOffset?) ∧
    ∀ (t u : Instant) (a b : EpochOffset), t.toEpochOffset? = some a → u.toEpochOffset? = some b →
      (t.toNanos < u.toNanos ↔ toLex (a.seconds, a.nanos) < toLex (b.seconds, b.nanos)) := by
  refine ⟨toNanos_distance, fun t ht => ?_, fun t => ?_, fun _ _ _ _ => staysInRange,
    toEpochOffsetChecked?_eq, fun t u a b ha hb => ?_⟩
  · exact ⟨t.parts, toEpochOffset?_eq_some ht, t.nanos_lt, rfl,
      EpochOffset.toInstant?_eq_some_iff.mpr rfl⟩
  · constructor
    · intro hnone
      by_contra ht
      rw [toEpochOffset?_eq_some ht] at hnone
      cases hnone
    · rintro rfl
      exact toEpochOffset?_earliest
  · rw [← (toEpochOffset?_eq_some_iff.mp ha).2, ← (toEpochOffset?_eq_some_iff.mp hb).2]
    exact toNanos_lt_iff

theorem one_lt_nanosPerSecond : (1 : UInt32).toNat < nanosPerSecond := by
  decide

/-- The first instant that has an offset. -/
def secondEarliest : Instant := ⟨Int64.minValue, 1, one_lt_nanosPerSecond⟩

theorem toEpochOffset?_secondEarliest :
    secondEarliest ≠ earliest ∧
    (∃ offset, secondEarliest.toEpochOffset? = some offset ∧
      offset.toNanos = -9223372036854775808000000000 + 1 ∧
        offset.toInstant? = some secondEarliest) ∧
    (∃ d seconds, secondEarliest.distance = .before d ∧
      int64? d.seconds.toNat = some seconds ∧ seconds = Int64.maxValue ∧
        StaysInRange d seconds) ∧
    (secondEarliest.toNanos < epoch.toNanos ↔
      toLex (Int64.minValue, (1 : UInt32)) < toLex ((0 : Int64), (0 : UInt32))) := by
  obtain ⟨-, hoffset, -, hrange, -, horder⟩ := toEpochOffset?_floors
  have hne : secondEarliest ≠ earliest := by decide
  refine ⟨hne, ?_, ?_, horder _ _ ⟨Int64.minValue, 1⟩ ⟨0, 0⟩ (by decide) (by decide)⟩
  · obtain ⟨offset, hsome, -, hcount, hback⟩ := hoffset _ hne
    exact ⟨offset, hsome, hcount.trans (by decide), hback⟩
  · have hdistance : secondEarliest.distance =
        .before ⟨9223372036854775807, 999999999, by decide⟩ := by decide
    have hseconds : int64? (9223372036854775807 : UInt64).toNat = some Int64.maxValue := by decide
    exact ⟨_, _, hdistance, hseconds, rfl, hrange _ _ _ hdistance hseconds⟩

end Instant

end HardwareKeys

import HardwareKeys.Instant

/-!
# Epoch offsets

The written form of an instant: whole seconds from the epoch, rounded down, and the nanoseconds after them. Every instant but the earliest has one, and an offset names an instant exactly when its nanoseconds are less than a second.
-/

namespace HardwareKeys

structure EpochOffset where
  seconds : Int64
  nanos : UInt32
deriving DecidableEq

/-- The offset of an instant, worked out from its distance to the epoch: none if the seconds of the distance do not fit a signed word. -/
def Instant.toEpochOffset? (t : Instant) : Option EpochOffset :=
  match t.distance with
  | .after d => do
    let seconds ← int64? d.seconds.toNat
    pure ⟨seconds, d.nanos⟩
  | .before d => do
    let seconds ← int64? d.seconds.toNat
    if d.nanos = 0 then pure ⟨-seconds, 0⟩
    else
      let negated ← int64? (-seconds.toInt)
      let floor ← int64? (negated.toInt - 1)
      pure ⟨floor, .ofNat nanosPerSecond - d.nanos⟩

/-- The instant that lies `offset` from the epoch: whole seconds are counted first, nanoseconds after them. -/
def EpochOffset.toInstant? (offset : EpochOffset) : Option Instant :=
  if h : offset.nanos.toNat < nanosPerSecond then do
    let whole := Duration.ofSeconds (.ofNat offset.seconds.toInt.natAbs)
    let start ← if 0 ≤ offset.seconds then Instant.epoch.add? whole else Instant.epoch.sub? whole
    start.add? (.ofNanos offset.nanos h)
  else none

end HardwareKeys

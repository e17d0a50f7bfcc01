import HardwareKeys.Number.Word

/-!
# Instants

An instant is a signed 64-bit count of whole seconds from the Unix epoch, rounded down, and nanoseconds within the second. A duration is unsigned. Sums and differences that leave the range of instants are `none`.
-/

namespace HardwareKeys

def nanosPerSecond : Nat := 1000000000

structure Duration where
  seconds : UInt64
  nanos : UInt32
  nanos_lt : nanos.toNat < nanosPerSecond
deriving DecidableEq

structure Instant where
  seconds : Int64
  nanos : UInt32
  nanos_lt : nanos.toNat < nanosPerSecond
deriving DecidableEq

theorem ofNat_nanos_lt {n : Nat} (h : n < nanosPerSecond) :
    (UInt32.ofNat n).toNat < nanosPerSecond := by
  have : n < 2 ^ 32 := Nat.lt_trans h (by decide)
  rwa [UInt32.toNat_ofNat_of_lt' this]

namespace Duration

def ofSeconds (seconds : UInt64) : Duration := ⟨seconds, 0, by decide⟩

/-- A duration shorter than a second. -/
def ofNanos (nanos : UInt32) (h : nanos.toNat < nanosPerSecond) : Duration := ⟨0, nanos, h⟩

end Duration

namespace Instant

/-- The start of 1970. -/
def epoch : Instant := ⟨0, 0, by decide⟩

/-- The instant of so many seconds and so many nanoseconds, where the nanoseconds may pass the second by less than one whole second. -/
def ofParts? (seconds : Int) (nanos : Nat) (h : nanos < 2 * nanosPerSecond) : Option Instant :=
  if hn : nanos < nanosPerSecond then do
    let seconds ← int64? seconds
    pure ⟨seconds, .ofNat nanos, ofNat_nanos_lt hn⟩
  else do
    let seconds ← int64? (seconds + 1)
    pure ⟨seconds, .ofNat (nanos - nanosPerSecond), ofNat_nanos_lt (by omega)⟩

def add? (t : Instant) (d : Duration) : Option Instant :=
  ofParts? (t.seconds.toInt + d.seconds.toNat) (t.nanos.toNat + d.nanos.toNat)
    (by have := t.nanos_lt; have := d.nanos_lt; omega)

def sub? (t : Instant) (d : Duration) : Option Instant :=
  ofParts? (t.seconds.toInt - d.seconds.toNat - 1)
    (t.nanos.toNat + (nanosPerSecond - d.nanos.toNat))
    (by have := t.nanos_lt; omega)

/-- How far an instant lies from the epoch, and on which side. -/
inductive Distance where
  | after (d : Duration)
  | before (d : Duration)
deriving DecidableEq

def distance (t : Instant) : Distance :=
  if 0 ≤ t.seconds then .after ⟨.ofNat t.seconds.toInt.toNat, t.nanos, t.nanos_lt⟩
  else if h : t.nanos = 0 then .before (.ofSeconds (.ofNat (-t.seconds.toInt).toNat))
  else .before ⟨.ofNat (-t.seconds.toInt - 1).toNat, .ofNat (nanosPerSecond - t.nanos.toNat),
    ofNat_nanos_lt (by
      have : t.nanos.toNat ≠ 0 := fun hzero => h (UInt32.toNat_inj.mp hzero)
      simp only [nanosPerSecond]; omega)⟩

/-- The signed offset from the epoch in nanoseconds. -/
def toNanos (t : Instant) : Int := t.seconds.toInt * nanosPerSecond + t.nanos.toNat

/-- The instant `2 ^ 63` seconds before the epoch. -/
def earliest : Instant := ⟨Int64.minValue, 0, by decide⟩

end Instant

end HardwareKeys

/-!
# Machine words

A number as a word of fixed width, when it fits one.
-/

namespace HardwareKeys

def word32? (n : Int) : Option UInt32 :=
  if 0 ≤ n ∧ n < UInt32.size then some (UInt32.ofNat n.toNat) else none

def int32? (n : Int) : Option Int32 :=
  if Int32.minValue.toInt ≤ n ∧ n ≤ Int32.maxValue.toInt then some (Int32.ofInt n) else none

def int64? (n : Int) : Option Int64 :=
  if Int64.minValue.toInt ≤ n ∧ n ≤ Int64.maxValue.toInt then some (Int64.ofInt n) else none

theorem word32?_eq_some_iff {n : Int} {w : UInt32} : word32? n = some w ↔ n = w.toNat := by
  have := w.toNat_lt
  have hsize : (UInt32.size : Int) = 4294967296 := rfl
  unfold word32?
  split
  · next h =>
    simp only [Option.some.injEq, ← UInt32.toNat_inj]
    rw [UInt32.toNat_ofNat_of_lt' (by omega)]
    omega
  · simp only [reduceCtorEq, false_iff]
    omega

theorem int32?_eq_some_iff {n : Int} {w : Int32} : int32? n = some w ↔ n = w.toInt := by
  have hle := w.le_toInt
  have hlt := w.toInt_lt
  have hmin := Int32.toInt_minValue
  have hmax := Int32.toInt_maxValue
  unfold int32?
  split
  · next h =>
    simp only [Option.some.injEq, ← Int32.toInt_inj]
    rw [Int32.toInt_ofInt_of_le (by omega) (by omega)]
  · simp only [reduceCtorEq, false_iff]
    omega

theorem int64?_eq_some_iff {n : Int} {w : Int64} : int64? n = some w ↔ n = w.toInt := by
  have hle := w.le_toInt
  have hlt := w.toInt_lt
  have hmin := Int64.toInt_minValue
  have hmax := Int64.toInt_maxValue
  unfold int64?
  split
  · next h =>
    simp only [Option.some.injEq, ← Int64.toInt_inj]
    rw [Int64.toInt_ofInt_of_le (by omega) (by omega)]
  · simp only [reduceCtorEq, false_iff]
    omega

end HardwareKeys

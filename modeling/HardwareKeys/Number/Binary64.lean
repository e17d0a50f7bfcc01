/-!
# Binary floating point

A finite binary64 number is a whole count of units of `2⁻¹⁰⁷⁴` with at most 53 significant bits, so every operation is an exact quotient of natural numbers rounded once.
-/

namespace HardwareKeys

/-- The quotient to the nearest integer, a half going to the even one. -/
def roundDiv (num den : Nat) : Nat :=
  let quotient := num / den
  let remainder := num % den
  if 2 * remainder < den then quotient
  else if den < 2 * remainder then quotient + 1
  else quotient + quotient % 2

/-- The sign of a finite number and its magnitude in units of `2⁻¹⁰⁷⁴`. -/
structure Binary64 where
  negative : Bool
  units : Nat
deriving DecidableEq

namespace Binary64

/-- How many units make one. -/
def unitsPerOne : Nat := 1 <<< 1074

/-- The first magnitude past the finite ones, in units. -/
def overflow : Nat := unitsPerOne <<< 1024

/-- The spacing, in units, of the numbers about `units`: at most 53 bits are significant. -/
def spacing (units : Nat) : Nat := 1 <<< (units.log2 - 52)

/-- The magnitude nearest to `num / den` units, a tie going to the even significand. -/
def roundUnits (num den : Nat) : Nat :=
  let step := spacing (num / den)
  roundDiv num (den * step) * step

/-- The magnitude nearest to a natural number. -/
def unitsOfNat (n : Nat) : Nat := roundUnits (n * unitsPerOne) 1

def mulUnits (x y : Nat) : Nat := roundUnits (x * y) unitsPerOne

def divUnits (x y : Nat) : Nat := roundUnits (x * unitsPerOne) y

def powerOfTen (exponent : Nat) : Nat := Nat.pow 10 exponent

/-- The exponent of the largest power of ten that is finite. -/
def maxPowerOfTen : Nat := 308

/-- A magnitude times a power of ten, each step rounded; `none` when it leaves the finite range.
Powers of ten are taken at most `maxPowerOfTen` at a time. -/
def scaleByPowerOfTen (units : Nat) (exponent : Int) : Option Nat :=
  if exponent.natAbs ≤ maxPowerOfTen then
    let power := unitsOfNat (powerOfTen exponent.natAbs)
    if 0 ≤ exponent then
      let product := mulUnits units power
      if product < overflow then some product else none
    else some (divUnits units power)
  else if units = 0 then some 0
  else if 0 ≤ exponent then none
  else scaleByPowerOfTen (divUnits units (unitsOfNat (powerOfTen maxPowerOfTen)))
    (exponent + maxPowerOfTen)
termination_by exponent.natAbs
decreasing_by simp only [maxPowerOfTen] at *; omega

/-- The value of `significand * 10 ^ exponent`, or `none` when it is not finite. -/
def ofDecimal (negative : Bool) (significand : Nat) (exponent : Int) : Option Binary64 :=
  (scaleByPowerOfTen (unitsOfNat significand) exponent).map fun units => ⟨negative, units⟩

end Binary64

end HardwareKeys

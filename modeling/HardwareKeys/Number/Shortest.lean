import HardwareKeys.Number.Binary64

/-!
# Shortest decimal text of a binary64 number

The digits are those of the coarsest decimal grid that has a point reading back as the number; of two such points the nearer is taken, and an exact tie goes to the even one. `Layout` says how digits and exponent are set out.
-/

namespace HardwareKeys

/-- The decimal number `coefficient * 10 ^ exponent`. -/
structure Decimal where
  coefficient : Nat
  exponent : Int
deriving DecidableEq

namespace Binary64

/-- Whether `point / scale` units round to the positive magnitude `units`. The next number below a power of two is at half the distance, and the ends of the interval belong to it when the significand is even. -/
def roundsTo (units point scale : Nat) : Bool :=
  let step := spacing units
  let below := if units = 1 <<< units.log2 ∧ 1 < step then step else 2 * step
  let low := (4 * units - below) * scale
  let high := (4 * units + 2 * step) * scale
  if units / step % 2 = 0 then low ≤ 4 * point && 4 * point ≤ high
  else low < 4 * point && 4 * point < high

/-- The best multiple of `10 ^ exponent` that reads back as the positive magnitude `units`. -/
def onGrid? (units : Nat) (exponent : Int) : Option Decimal :=
  let num := units * powerOfTen (-exponent).toNat
  let den := unitsPerOne * powerOfTen exponent.toNat
  let reads (coefficient : Nat) : Bool :=
    coefficient ≠ 0 && roundsTo units (coefficient * den) (powerOfTen (-exponent).toNat)
  let floor := num / den
  let nearest := roundDiv num den
  if reads nearest then some ⟨nearest, exponent⟩
  else if reads floor then some ⟨floor, exponent⟩
  else if reads (floor + 1) then some ⟨floor + 1, exponent⟩
  else none

/-- The exponents of the grids to try, coarsest first. -/
def gridExponents : List Int := (List.range 700).map fun i : Nat => 309 - (i : Int)

/-- The shortest decimal that reads back as the magnitude `units`. -/
def shortest (units : Nat) : Decimal :=
  (gridExponents.findSome? (onGrid? units)).getD ⟨0, 0⟩

/-- Where positional notation begins and ends, as decimal exponents of the leading digit. -/
structure Layout where
  firstPositional : Int
  lastPositional : Int

/-- Positional from `0.00001` up to sixteen digits before the point, and one leading digit with a signed exponent outside. -/
def Layout.standard : Layout := ⟨-5, 15⟩

def signText (negative : Bool) : String := if negative then "-" else ""

def zeros (count : Nat) : String := String.ofList (List.replicate count '0')

def Layout.positional (digits : List Char) (exponent leading : Int) : String :=
  if leading < 0 then "0." ++ zeros (-leading - 1).toNat ++ String.ofList digits
  else if 0 ≤ exponent then String.ofList digits ++ zeros exponent.toNat ++ ".0"
  else String.ofList (digits.take (leading + 1).toNat) ++ "."
    ++ String.ofList (digits.drop (leading + 1).toNat)

def Layout.scientific (digits : List Char) (leading : Int) : String :=
  let fraction := if digits.length ≤ 1 then "" else "." ++ String.ofList (digits.drop 1)
  let mark := if leading < 0 then "e-" else "e+"
  String.ofList (digits.take 1) ++ fraction ++ mark ++ toString leading.natAbs

def Layout.render (layout : Layout) (value : Decimal) : String :=
  let digits := Nat.toDigits 10 value.coefficient
  let leading := value.exponent + digits.length - 1
  if layout.firstPositional ≤ leading ∧ leading ≤ layout.lastPositional then
    Layout.positional digits value.exponent leading
  else Layout.scientific digits leading

def text (x : Binary64) : String :=
  signText x.negative
    ++ if x.units = 0 then "0.0" else Layout.standard.render (shortest x.units)

end Binary64

end HardwareKeys

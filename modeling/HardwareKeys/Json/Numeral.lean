import HardwareKeys.Json.Error

/-!
# Number literals

`Numeral.scan` splits a literal into its parts by the grammar alone; `Numeral.value` says which number the parts stand for. A literal without fraction and exponent is an integer while it fits 64 bits; `-0` and everything else is a binary64 number.
-/

namespace HardwareKeys.Json

structure Exponent where
  negative : Bool
  digits : List Char
deriving DecidableEq

/-- The parts of a number literal, each as its digits. -/
structure Numeral where
  negative : Bool
  whole : List Char
  fraction : Option (List Char)
  exponent : Option Exponent
deriving DecidableEq

namespace Numeral

/-- Why a literal cannot be split: a digit is wanted where the text ends or where something else stands. -/
inductive Fault where
  | ended
  | malformed
deriving DecidableEq

/-- One digit or more. -/
def scanDigits (s : List Char) : Except Fault (List Char × List Char) :=
  match s.takeWhile Char.isDigit, s.dropWhile Char.isDigit with
  | [], [] => .error .ended
  | [], _ :: _ => .error .malformed
  | digit :: digits, rest => .ok (digit :: digits, rest)

/-- The digits before the point: none follows a leading zero. -/
def scanWhole (s : List Char) : Except Fault (List Char × List Char) :=
  match scanDigits s with
  | .ok ('0' :: _ :: _, _) => .error .malformed
  | result => result

def scanFraction : List Char → Except Fault (Option (List Char) × List Char)
  | '.' :: s => do
    let (digits, rest) ← scanDigits s
    pure (some digits, rest)
  | s => pure (none, s)

def scanSign : List Char → Bool × List Char
  | '-' :: s => (true, s)
  | '+' :: s => (false, s)
  | s => (false, s)

def scanExponent : List Char → Except Fault (Option Exponent × List Char)
  | [] => pure (none, [])
  | c :: s =>
    if c = 'e' ∨ c = 'E' then do
      let (digits, rest) ← scanDigits (scanSign s).2
      pure (some ⟨(scanSign s).1, digits⟩, rest)
    else pure (none, c :: s)

def startsNumber (c : Char) : Bool := c = '-' || c.isDigit

def scanMinus : List Char → Bool × List Char
  | '-' :: s => (true, s)
  | s => (false, s)

def scan (s : List Char) : Except Fault (Numeral × List Char) := do
  let (whole, rest) ← scanWhole (scanMinus s).2
  let (fraction, rest) ← scanFraction rest
  let (exponent, rest) ← scanExponent rest
  pure (⟨(scanMinus s).1, whole, fraction, exponent⟩, rest)

theorem scanDigits_eq_append {s digits rest : List Char} (h : scanDigits s = .ok (digits, rest)) :
    s = digits ++ rest ∧ digits ≠ [] := by
  have happend := List.takeWhile_append_dropWhile (p := Char.isDigit) (l := s)
  unfold scanDigits at h
  split at h
  · cases h
  · cases h
  · next hdigits =>
    cases h
    rw [hdigits] at happend
    exact ⟨happend.symm, List.cons_ne_nil _ _⟩

theorem scanDigits_length_lt {s digits rest : List Char} (h : scanDigits s = .ok (digits, rest)) :
    rest.length < s.length := by
  obtain ⟨rfl, hne⟩ := scanDigits_eq_append h
  simpa using List.length_pos_iff.mpr hne

theorem scanWhole_length_lt {s digits rest : List Char} (h : scanWhole s = .ok (digits, rest)) :
    rest.length < s.length := by
  unfold scanWhole at h
  split at h
  · cases h
  · exact scanDigits_length_lt h

theorem scanFraction_length_le {s rest : List Char} {fraction : Option (List Char)}
    (h : scanFraction s = .ok (fraction, rest)) : rest.length ≤ s.length := by
  unfold scanFraction at h
  split at h
  · obtain ⟨⟨digits, tail⟩, hdigits, h⟩ := bind_eq_ok_iff.mp h
    cases h
    exact Nat.le_succ_of_le (Nat.le_of_lt (scanDigits_length_lt hdigits))
  · cases h
    exact Nat.le_refl _

theorem scanSign_length_le (s : List Char) : (scanSign s).2.length ≤ s.length := by
  unfold scanSign
  split <;> simp

theorem scanMinus_length_le (s : List Char) : (scanMinus s).2.length ≤ s.length := by
  unfold scanMinus
  split <;> simp

theorem scanExponent_length_le {s rest : List Char} {exponent : Option Exponent}
    (h : scanExponent s = .ok (exponent, rest)) : rest.length ≤ s.length := by
  unfold scanExponent at h
  split at h
  · cases h
    exact Nat.le_refl _
  · next c tail =>
    split at h
    · obtain ⟨⟨digits, last⟩, hdigits, h⟩ := bind_eq_ok_iff.mp h
      cases h
      have := scanDigits_length_lt hdigits
      have := scanSign_length_le tail
      simp only [List.length_cons]
      omega
    · cases h
      exact Nat.le_refl _

theorem scan_length_lt {s rest : List Char} {numeral : Numeral} (h : scan s = .ok (numeral, rest)) :
    rest.length < s.length := by
  obtain ⟨⟨whole, afterWhole⟩, hwhole, h⟩ := bind_eq_ok_iff.mp h
  obtain ⟨⟨fraction, afterFraction⟩, hfraction, h⟩ := bind_eq_ok_iff.mp h
  obtain ⟨⟨exponent, afterExponent⟩, hexponent, h⟩ := bind_eq_ok_iff.mp h
  cases h
  have := scanMinus_length_le s
  have := scanWhole_length_lt hwhole
  have := scanFraction_length_le hfraction
  have := scanExponent_length_le hexponent
  omega

end Numeral

/-- What a literal stands for. -/
inductive Number where
  | integer (value : Int)
  | real (value : Binary64)
deriving DecidableEq

def Number.found : Number → Found
  | integer value => .integer value
  | real value => .real value

namespace Numeral

def digitsValue (digits : List Char) : Nat := Nat.ofDigitChars 10 digits 0

/-- The bound below which digits are taken into a significand. -/
def significandBound : Nat := UInt64.size

/-- Takes digits into the significand while it stays below the bound; the second number counts those taken. -/
def takeDigits (significand : Nat) : List Char → Nat × Nat
  | [] => (significand, 0)
  | c :: digits =>
    let next := 10 * significand + (c.toNat - '0'.toNat)
    if next < significandBound then
      let (last, count) := takeDigits next digits
      (last, count + 1)
    else (significand, 0)

def Exponent.value (e : Exponent) : Int :=
  let magnitude : Int := digitsValue e.digits
  if e.negative then -magnitude else magnitude

/-- The binary64 number of a literal: digits past the significand move the exponent before the point and are dropped after it. -/
def toBinary64? (n : Numeral) : Option Binary64 :=
  let (whole, taken) := takeDigits 0 n.whole
  let (significand, places) := takeDigits whole (n.fraction.getD [])
  let shift : Int := (n.whole.length : Int) - taken - places
  let exponent := (n.exponent.map Exponent.value).getD 0
  Binary64.ofDecimal n.negative significand (shift + exponent)

/-- The integer of a literal, if it has neither fraction nor exponent and fits 64 bits, signed or not. -/
def integer? (n : Numeral) : Option Int :=
  if n.fraction = none ∧ n.exponent = none then
    let magnitude := digitsValue n.whole
    if n.negative then
      if 0 < magnitude ∧ Int64.minValue.toInt ≤ -magnitude then some (-magnitude) else none
    else if magnitude < UInt64.size then some magnitude else none
  else none

def value (n : Numeral) : Except ReadError Number :=
  match n.integer? with
  | some integer => .ok (.integer integer)
  | none =>
    match n.toBinary64? with
    | some real => .ok (.real real)
    | none => .error .numberOutOfRange

end Numeral

end HardwareKeys.Json

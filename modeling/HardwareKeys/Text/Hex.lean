/-!
# Hexadecimal text

Digits of either case are read; lower-case digits are written.
-/

namespace HardwareKeys.Text

def hexValue? (c : Char) : Option Nat :=
  if '0' ≤ c ∧ c ≤ '9' then some (c.toNat - '0'.toNat)
  else if 'a' ≤ c ∧ c ≤ 'f' then some (c.toNat - 'a'.toNat + 10)
  else if 'A' ≤ c ∧ c ≤ 'F' then some (c.toNat - 'A'.toNat + 10)
  else none

/-- The number that follows `value` when the digits `s` are written after it. -/
def readHexFrom : Nat → List Char → Option Nat
  | value, [] => some value
  | value, c :: s =>
    match hexValue? c with
    | some digit => readHexFrom (16 * value + digit) s
    | none => none

/-- The number a nonempty list of digits stands for. -/
def readHex : List Char → Option Nat
  | [] => none
  | c :: s => readHexFrom 0 (c :: s)

def hexDigits (n : Nat) : List Char := Nat.toDigits 16 n

theorem hexValue?_digitChar {d : Nat} (h : d < 16) : hexValue? d.digitChar = some d := by
  decide +revert

theorem readHexFrom_append (value : Nat) (s t : List Char) :
    readHexFrom value (s ++ t) = (readHexFrom value s).bind fun n => readHexFrom n t := by
  induction s generalizing value with
  | nil => rfl
  | cons c s ih =>
    simp only [List.cons_append, readHexFrom]
    split
    · exact ih _
    · rfl

theorem readHexFrom_hexDigits (n : Nat) : readHexFrom 0 (hexDigits n) = some n := by
  induction n using Nat.strongRecOn with
  | _ n ih =>
    by_cases h : n < 16
    · rw [hexDigits, Nat.toDigits_of_lt_base h]
      simp [readHexFrom, hexValue?_digitChar h]
    · rw [hexDigits, Nat.toDigits_of_base_le (by decide) (Nat.le_of_not_lt h), readHexFrom_append]
      have hquotient := ih (n / 16) (Nat.div_lt_self (by omega) (by decide))
      rw [hexDigits] at hquotient
      rw [hquotient]
      simp only [Option.bind_some, readHexFrom, hexValue?_digitChar (Nat.mod_lt n (by decide : 16 > 0))]
      exact congrArg some (Nat.div_add_mod n 16)

theorem hexDigits_ne_nil (n : Nat) : hexDigits n ≠ [] := by
  simp [hexDigits]

theorem readHex_hexDigits (n : Nat) : readHex (hexDigits n) = some n := by
  have h := readHexFrom_hexDigits n
  match hs : hexDigits n with
  | [] => exact absurd hs (hexDigits_ne_nil n)
  | c :: s => rwa [hs] at h

end HardwareKeys.Text

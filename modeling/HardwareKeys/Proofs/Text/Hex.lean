import Mathlib.Data.List.Forall2
import Mathlib.Data.Nat.Digits.Defs
import HardwareKeys.Text.Hex

/-!
# Numbers in base sixteen

What the reader of hexadecimal digits accepts, said through the digits' values: each digit in either case, and the number as the sum of the values with their places, however many digits there are.
-/

namespace HardwareKeys.Text

/-- A digit of either case. -/
def IsHexDigit (c : Char) (value : Nat) : Prop :=
  value < 16 ∧ (c = value.digitChar ∨ c = value.digitChar.toUpper)

/-- Digits, at least one, and the number they stand for; the last digit counts ones. -/
def SpellsHex (digits : List Char) (n : Nat) : Prop :=
  digits ≠ [] ∧ ∃ values, List.Forall₂ IsHexDigit digits values ∧
    Nat.ofDigits 16 values.reverse = n

theorem toNat_digitChar_of_lt {value : Nat} (h : value < 10) :
    value.digitChar.toNat = value + '0'.toNat := by
  decide +revert

theorem toNat_digitChar_of_le {value : Nat} (hlow : 10 ≤ value) (hhigh : value < 16) :
    value.digitChar.toNat = value - 10 + 'a'.toNat ∧
      value.digitChar.toUpper.toNat = value - 10 + 'A'.toNat := by
  decide +revert

theorem hexValue?_toUpper_digitChar {value : Nat} (h : value < 16) :
    hexValue? value.digitChar.toUpper = some value := by
  decide +revert

theorem distance_lt {first last c : Char} {n : Nat} (h : first ≤ c ∧ c ≤ last)
    (hn : last.toNat - first.toNat < n) : c.toNat - first.toNat < n := by
  have hlast : c.toNat ≤ last.toNat := h.2
  omega

/-- A character of a range is told by its distance from the first one. -/
theorem eq_of_distance {first last c digit : Char} (h : first ≤ c ∧ c ≤ last)
    (hdigit : digit.toNat = c.toNat - first.toNat + first.toNat) : c = digit := by
  have hfirst : first.toNat ≤ c.toNat := h.1
  apply Char.toNat_inj.mp
  omega

theorem hexValue?_eq_some_iff {c : Char} {value : Nat} :
    hexValue? c = some value ↔ IsHexDigit c value := by
  constructor
  · intro h
    unfold hexValue? at h
    split at h
    · next hrange =>
      obtain rfl := Option.some.inj h
      have hlt : c.toNat - '0'.toNat < 10 := distance_lt hrange (by decide)
      exact ⟨by omega, .inl (eq_of_distance hrange (toNat_digitChar_of_lt hlt))⟩
    split at h
    · next hrange =>
      obtain rfl := Option.some.inj h
      have hlt : c.toNat - 'a'.toNat < 6 := distance_lt hrange (by decide)
      refine ⟨by omega, .inl (eq_of_distance hrange ?_)⟩
      rw [(toNat_digitChar_of_le (by omega) (by omega)).1, Nat.add_sub_cancel]
    split at h
    · next hrange =>
      obtain rfl := Option.some.inj h
      have hlt : c.toNat - 'A'.toNat < 6 := distance_lt hrange (by decide)
      refine ⟨by omega, .inr (eq_of_distance hrange ?_)⟩
      rw [(toNat_digitChar_of_le (by omega) (by omega)).2, Nat.add_sub_cancel]
    · cases h
  · rintro ⟨hvalue, rfl | rfl⟩
    · exact hexValue?_digitChar hvalue
    · exact hexValue?_toUpper_digitChar hvalue

theorem readHexFrom_eq_some_iff {start n : Nat} {digits : List Char} :
    readHexFrom start digits = some n ↔ ∃ values, List.Forall₂ IsHexDigit digits values ∧
      values.foldl (fun n value => 16 * n + value) start = n := by
  induction digits generalizing start with
  | nil => simp [readHexFrom]
  | cons c digits ih =>
    constructor
    · intro h
      unfold readHexFrom at h
      split at h
      · next value hc =>
        obtain ⟨values, hvalues, hn⟩ := ih.mp h
        exact ⟨value :: values, .cons (hexValue?_eq_some_iff.mp hc) hvalues, hn⟩
      · cases h
    · rintro ⟨_, _ | ⟨hc, hvalues⟩, hn⟩
      rw [readHexFrom, hexValue?_eq_some_iff.mpr hc]
      exact ih.mpr ⟨_, hvalues, hn⟩

theorem ofDigits_reverse (values : List Nat) :
    Nat.ofDigits 16 values.reverse = values.foldl (fun n value => 16 * n + value) 0 := by
  rw [Nat.ofDigits_eq_foldr, List.foldr_reverse]
  simp [Nat.add_comm]

theorem readHex_eq_some_iff {digits : List Char} {n : Nat} :
    readHex digits = some n ↔ SpellsHex digits n := by
  simp only [SpellsHex, ofDigits_reverse, ← readHexFrom_eq_some_iff]
  cases digits with
  | nil => simp [readHex]
  | cons c digits => simp [readHex]

end HardwareKeys.Text

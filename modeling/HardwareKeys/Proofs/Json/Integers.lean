import HardwareKeys.Proofs.Json.Decisive

/-!
# Literals of integers

A literal without fraction and exponent is an integer, except `-0`, which is a real number. A word is read from these literals and no others, and only where the value of all digits is one of the word: nothing is cut off, wrapped around or rounded, however many digits there are.
-/

namespace HardwareKeys.Json

namespace Numeral

/-- The value of a literal without fraction and exponent. -/
def intValue (n : Numeral) : Int :=
  if n.negative then -digitsValue n.whole else digitsValue n.whole

/-- The literal `s`, of the parts `n`, has the form of an integer. -/
structure IsInteger (n : Numeral) (s : List Char) : Prop where
  fraction : n.fraction = none
  exponent : n.exponent = none
  ne_minusZero : s ≠ ['-', '0']

theorem le_ofDigitChars (digits : List Char) (n : Nat) : n ≤ Nat.ofDigitChars 10 digits n := by
  induction digits generalizing n with
  | nil => exact Nat.le_refl n
  | cons c digits ih =>
    rw [Nat.ofDigitChars_cons]
    exact Nat.le_trans (by omega) (ih _)

theorem digitsValue_eq_zero_iff {digits : List Char} (h : IsWhole digits) :
    digitsValue digits = 0 ↔ digits = ['0'] := by
  constructor
  · intro hzero
    obtain ⟨c, tail, rfl⟩ := List.exists_cons_of_ne_nil h.1.1
    have hle := le_ofDigitChars tail (10 * 0 + (c.toNat - '0'.toNat))
    rw [← Nat.ofDigitChars_cons, ← digitsValue, hzero] at hle
    have hdigit := Char.isDigit_iff_toNat.mp (h.1.2 c List.mem_cons_self)
    have hchar : c = '0' := by
      have hcode : '0'.toNat = 48 := rfl
      apply Char.toNat_inj.mp
      omega
    rw [hchar, h.2 tail (by rw [hchar])]
  · rintro rfl
    rfl

theorem Spells.eq_minusZero_iff {n : Numeral} {s : List Char} (h : n.Spells s)
    (hfraction : n.fraction = none) (hexponent : n.exponent = none) :
    s = ['-', '0'] ↔ n.negative = true ∧ digitsValue n.whole = 0 := by
  obtain ⟨hwhole, hf, he⟩ := h
  rw [hfraction] at hf
  rw [hexponent] at he
  cases hf
  cases he
  rw [digitsValue_eq_zero_iff hwhole, List.append_nil, List.append_nil]
  cases hnegative : n.negative with
  | true => simp [minus]
  | false =>
    simp only [minus, Bool.false_eq_true, ↓reduceIte, List.nil_append, false_and, iff_false]
    intro heq
    have hdigit := hwhole.1.2 '-' (by rw [heq]; exact List.mem_cons_self)
    exact absurd hdigit (by decide)

theorem integer?_eq_some_iff {n : Numeral} {s : List Char} (h : n.Spells s) {k : Int} :
    n.integer? = some k ↔
      n.IsInteger s ∧ n.intValue = k ∧ Int64.minValue.toInt ≤ k ∧ k < UInt64.size := by
  have hmin := Int64.toInt_minValue
  by_cases hform : n.fraction = none ∧ n.exponent = none
  · have hinteger : n.IsInteger s ↔ ¬(n.negative = true ∧ digitsValue n.whole = 0) := by
      rw [← h.eq_minusZero_iff hform.1 hform.2]
      exact ⟨IsInteger.ne_minusZero, fun hne => ⟨hform.1, hform.2, hne⟩⟩
    rw [integer?, if_pos hform, hinteger, intValue]
    cases n.negative with
    | true =>
      simp only [↓reduceIte, Option.ite_none_right_eq_some, Option.some.injEq, true_and]
      omega
    | false =>
      simp only [Bool.false_eq_true, ↓reduceIte, Option.ite_none_right_eq_some,
        Option.some.injEq, false_and, not_false_eq_true, true_and]
      omega
  · rw [integer?, if_neg hform]
    constructor
    · intro hnone
      cases hnone
    · rintro ⟨hinteger, -⟩
      exact absurd ⟨hinteger.fraction, hinteger.exponent⟩ hform

end Numeral

namespace Codec

variable {α : Type}

/-- A literal is read as a word if it is an integer and its value is that of the word; these values are those from `low` on, below `bound`. -/
structure ReadsIntegers (c : Codec α) (value : α → Int) (low bound : Int) : Prop where
  readAll_iff : ∀ {n : Numeral} {s : List Char}, n.Spells s → ∀ {a : α},
    c.readAll s = .ok a ↔ n.IsInteger s ∧ n.intValue = value a
  exists_iff : ∀ {k : Int}, (∃ a, value a = k) ↔ low ≤ k ∧ k < bound

theorem ReadsIntegers.exists_readAll_iff {c : Codec α} {value : α → Int} {low bound : Int}
    (h : c.ReadsIntegers value low bound) {n : Numeral} {s : List Char} (hs : n.Spells s)
    {P : α → Prop} :
    (∃ a, c.readAll s = .ok a ∧ P a) ↔ n.IsInteger s ∧ ∃ a, value a = n.intValue ∧ P a := by
  simp only [h.readAll_iff hs]
  constructor
  · rintro ⟨a, ⟨hinteger, hvalue⟩, ha⟩
    exact ⟨hinteger, a, hvalue.symm, ha⟩
  · rintro ⟨hinteger, a, hvalue, ha⟩
    exact ⟨a, ⟨hinteger, hvalue.symm⟩, ha⟩

theorem convertInteger_bind_eq_ok_iff {n : Numeral} {expected : Expected}
    {convert : Int → Option α} {a : α} :
    (n.value >>= Reader.convertInteger expected convert) = .ok a ↔
      ∃ k, n.integer? = some k ∧ convert k = some a := by
  unfold Numeral.value
  cases n.integer? with
  | some k =>
    simp only [bind, Except.bind, Reader.convertInteger, Option.some.injEq, exists_eq_left']
    cases convert k <;> simp [throw, throwThe, MonadExceptOf.throw, pure, Except.pure]
  | none =>
    simp only [reduceCtorEq, false_and, exists_false, iff_false]
    intro hreal
    cases hbinary : n.toBinary64? with
    | none | some x =>
      rw [hbinary] at hreal
      cases hreal

theorem readsIntegers_integer {expected : Expected} {convert : Int → Option α}
    {value : α → Int} {low bound : Int} {write : α → Except WriteError (List Char)}
    (hconvert : ∀ {k a}, convert k = some a ↔ k = value a)
    (hexists : ∀ {k : Int}, (∃ a, value a = k) ↔ low ≤ k ∧ k < bound)
    (hlow : Int64.minValue.toInt ≤ low) (hbound : bound ≤ UInt64.size) :
    ReadsIntegers ⟨.integer expected convert, write⟩ value low bound where
  readAll_iff := by
    intro n s hs a
    rw [(Reader.settles_integer hs expected convert).readAll, convertInteger_bind_eq_ok_iff]
    simp only [Numeral.integer?_eq_some_iff hs, hconvert, exists_eq_right]
    -- The numbers of 64 bits, signed or not, hold every word, so their limits refuse none.
    have hrange := hexists.mp ⟨a, rfl⟩
    exact ⟨fun h => ⟨h.1, h.2.1⟩, fun h => ⟨h.1, h.2, by omega, by omega⟩⟩
  exists_iff := hexists

theorem readsIntegers_word32 : ReadsIntegers .word32 (fun w => w.toNat) 0 4294967296 := by
  refine readsIntegers_integer word32?_eq_some_iff (fun {k} => ⟨?_, fun h => ?_⟩) (by decide)
    (by decide)
  · rintro ⟨w, rfl⟩
    have := w.toNat_lt
    omega
  · refine ⟨.ofNat k.toNat, ?_⟩
    have hsize : UInt32.size = 4294967296 := rfl
    rw [UInt32.toNat_ofNat_of_lt' (by omega)]
    omega

theorem readsIntegers_int32 : ReadsIntegers .int32 Int32.toInt (-2147483648) 2147483648 := by
  refine readsIntegers_integer int32?_eq_some_iff (fun {k} => ⟨?_, fun h => ?_⟩) (by decide)
    (by decide)
  · rintro ⟨w, rfl⟩
    exact ⟨w.le_toInt, w.toInt_lt⟩
  · refine ⟨.ofInt k, Int32.toInt_ofInt_of_le (by omega) (by omega)⟩

theorem readsIntegers_int64 :
    ReadsIntegers .int64 Int64.toInt (-9223372036854775808) 9223372036854775808 := by
  refine readsIntegers_integer int64?_eq_some_iff (fun {k} => ⟨?_, fun h => ?_⟩) (by decide)
    (by decide)
  · rintro ⟨w, rfl⟩
    exact ⟨w.le_toInt, w.toInt_lt⟩
  · refine ⟨.ofInt k, Int64.toInt_ofInt_of_le (by omega) (by omega)⟩

end Codec

end HardwareKeys.Json

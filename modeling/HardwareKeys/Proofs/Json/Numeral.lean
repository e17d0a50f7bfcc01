import Mathlib.Data.List.TakeWhile
import HardwareKeys.Json.Codec

/-!
# Number literals

The grammar of a literal, part by part, and the scanner that takes a literal apart when the character after it cannot belong to a number. A written integer is a literal without fraction and exponent, and is read back as itself.
-/

namespace HardwareKeys.Json

/-- The characters by which a number could go on after its first digit. -/
def continuesNumber (c : Char) : Bool := c.isDigit || c = '.' || c = 'e' || c = 'E'

/-- A number that stands before `rest` ends there. -/
def EndsNumber (rest : List Char) : Prop := ∀ c ∈ rest.head?, continuesNumber c = false

@[simp]
theorem endsNumber_nil : EndsNumber [] := by
  simp [EndsNumber]

@[simp]
theorem endsNumber_cons {c : Char} {rest : List Char} :
    EndsNumber (c :: rest) ↔ continuesNumber c = false := by
  simp [EndsNumber]

namespace Numeral

/-- A row of digits that stands before `rest` ends there. -/
def EndsDigits (rest : List Char) : Prop := ∀ c ∈ rest.head?, c.isDigit = false

@[simp]
theorem endsDigits_cons {c : Char} {rest : List Char} :
    EndsDigits (c :: rest) ↔ c.isDigit = false := by
  simp [EndsDigits]

theorem endsDigits_of_endsNumber {rest : List Char} (h : EndsNumber rest) : EndsDigits rest := by
  intro c hc
  have hcontinues := h c hc
  simp only [continuesNumber, Bool.or_eq_false_iff] at hcontinues
  exact hcontinues.1.1.1

theorem EndsDigits.append {rest more : List Char} (h : EndsDigits rest) (hmore : EndsDigits more) :
    EndsDigits (rest ++ more) := by
  cases rest with
  | nil => exact hmore
  | cons c rest => exact endsDigits_cons.mpr (endsDigits_cons.mp h)

def IsDigits (s : List Char) : Prop := s ≠ [] ∧ ∀ c ∈ s, c.isDigit = true

/-- Digits before the point: a leading zero is the only one. -/
def IsWhole (s : List Char) : Prop := IsDigits s ∧ ∀ tail, s = '0' :: tail → tail = []

theorem scanDigits_append {digits rest : List Char} (h : IsDigits digits)
    (hrest : EndsDigits rest) : scanDigits (digits ++ rest) = .ok (digits, rest) := by
  obtain ⟨hne, hdigits⟩ := h
  have hhead : rest.takeWhile Char.isDigit = [] ∧ rest.dropWhile Char.isDigit = rest := by
    cases rest with
    | nil => exact ⟨rfl, rfl⟩
    | cons c rest => simp [endsDigits_cons.mp hrest]
  have htake : (digits ++ rest).takeWhile Char.isDigit = digits := by
    rw [List.takeWhile_append_of_pos hdigits, hhead.1, List.append_nil]
  have hdrop : (digits ++ rest).dropWhile Char.isDigit = rest := by
    rw [List.dropWhile_append_of_pos hdigits, hhead.2]
  cases digits with
  | nil => exact absurd rfl hne
  | cons digit digits =>
    unfold scanDigits
    rw [htake, hdrop]

theorem scanWhole_append {digits rest : List Char} (h : IsWhole digits) (hrest : EndsDigits rest) :
    scanWhole (digits ++ rest) = .ok (digits, rest) := by
  have hscan := scanDigits_append h.1 hrest
  unfold scanWhole
  split
  · next digit tail after hresult =>
    rw [hscan] at hresult
    obtain ⟨hdigits, -⟩ := Prod.mk.inj (Except.ok.inj hresult)
    exact absurd (h.2 _ hdigits) (List.cons_ne_nil _ _)
  · exact hscan

theorem scanDigits_eq_ok_iff {s digits rest : List Char} :
    scanDigits s = .ok (digits, rest) ↔
      IsDigits digits ∧ EndsDigits rest ∧ s = digits ++ rest := by
  constructor
  · intro h
    obtain ⟨hsplit, hne⟩ := scanDigits_eq_append h
    unfold scanDigits at h
    split at h
    · cases h
    · cases h
    · next hdigits =>
      cases h
      refine ⟨⟨hne, fun c hc => List.mem_takeWhile_imp (hdigits ▸ hc)⟩, fun c hc => ?_, hsplit⟩
      have hhead := List.head?_dropWhile_not Char.isDigit s
      rw [Option.mem_def.mp hc] at hhead
      exact hhead
  · rintro ⟨hdigits, hrest, rfl⟩
    exact scanDigits_append hdigits hrest

theorem scanWhole_eq_ok_iff {s digits rest : List Char} :
    scanWhole s = .ok (digits, rest) ↔
      IsWhole digits ∧ EndsDigits rest ∧ s = digits ++ rest := by
  constructor
  · intro h
    unfold scanWhole at h
    split at h
    · cases h
    · next hzero =>
      obtain ⟨hdigits, hrest, hsplit⟩ := scanDigits_eq_ok_iff.mp h
      refine ⟨⟨hdigits, fun tail htail => ?_⟩, hrest, hsplit⟩
      cases tail with
      | nil => rfl
      | cons c tail => exact absurd (htail ▸ h) (hzero c tail rest)
  · rintro ⟨hdigits, hrest, rfl⟩
    exact scanWhole_append hdigits hrest

inductive SpellsFraction : Option (List Char) → List Char → Prop where
  | absent : SpellsFraction none []
  | present {digits : List Char} (h : IsDigits digits) :
      SpellsFraction (some digits) ('.' :: digits)

/-- The sign of an exponent. -/
inductive SpellsSign : Bool → List Char → Prop where
  | minus : SpellsSign true ['-']
  | plus : SpellsSign false ['+']
  | absent : SpellsSign false []

inductive SpellsExponent : Option Exponent → List Char → Prop where
  | absent : SpellsExponent none []
  | present {mark : Char} {e : Exponent} {sign : List Char} (hmark : mark = 'e' ∨ mark = 'E')
      (hsign : SpellsSign e.negative sign) (h : IsDigits e.digits) :
      SpellsExponent (some e) (mark :: (sign ++ e.digits))

theorem scanFraction_of_endsNumber {rest : List Char} (hrest : EndsNumber rest) :
    scanFraction rest = .ok (none, rest) := by
  unfold scanFraction
  split
  · simp [continuesNumber] at hrest
  · rfl

theorem scanExponent_of_endsNumber {rest : List Char} (hrest : EndsNumber rest) :
    scanExponent rest = .ok (none, rest) := by
  unfold scanExponent
  split
  · rfl
  · next c tail =>
    simp only [endsNumber_cons, continuesNumber, Bool.or_eq_false_iff, decide_eq_false_iff_not]
      at hrest
    rw [if_neg fun h => h.elim hrest.1.2 hrest.2]
    rfl

theorem scanSign_append {negative : Bool} {sign digits : List Char}
    (hsign : SpellsSign negative sign) (h : IsDigits digits) (rest : List Char) :
    scanSign (sign ++ (digits ++ rest)) = (negative, digits ++ rest) := by
  cases hsign with
  | minus => rfl
  | plus => rfl
  | absent =>
    cases digits with
    | nil => exact absurd rfl h.1
    | cons c digits =>
      have hc : c.isDigit = true := h.2 c List.mem_cons_self
      rw [List.nil_append, List.cons_append]
      unfold scanSign
      split
      · next heq =>
        obtain ⟨rfl, -⟩ := List.cons.inj heq
        exact absurd hc (by decide)
      · next heq =>
        obtain ⟨rfl, -⟩ := List.cons.inj heq
        exact absurd hc (by decide)
      · rfl

theorem scanExponent_append {exponent : Option Exponent} {s rest : List Char}
    (h : SpellsExponent exponent s) (hrest : EndsNumber rest) :
    scanExponent (s ++ rest) = .ok (exponent, rest) := by
  cases h with
  | absent => exact scanExponent_of_endsNumber hrest
  | present hmark hsign h =>
    have hdigits := scanDigits_append h (endsDigits_of_endsNumber hrest)
    rw [List.cons_append, List.append_assoc]
    unfold scanExponent
    simp [hmark, scanSign_append hsign h, hdigits, bind, Except.bind, pure, Except.pure]

/-- After the fraction of a literal, the digits end where its exponent starts or the literal ends. -/
theorem endsDigits_exponent {exponent : Option Exponent} {s rest : List Char}
    (h : SpellsExponent exponent s) (hrest : EndsNumber rest) : EndsDigits (s ++ rest) := by
  cases h with
  | absent => exact endsDigits_of_endsNumber hrest
  | present hmark => rcases hmark with rfl | rfl <;> simp

theorem scanFraction_append {fraction : Option (List Char)} {exponent : Option Exponent}
    {s t rest : List Char} (h : SpellsFraction fraction s) (hexponent : SpellsExponent exponent t)
    (hrest : EndsNumber rest) : scanFraction (s ++ (t ++ rest)) = .ok (fraction, t ++ rest) := by
  cases h with
  | absent =>
    cases hexponent with
    | absent => exact scanFraction_of_endsNumber hrest
    | present hmark => rcases hmark with rfl | rfl <;> rfl
  | present h =>
    have hdigits := scanDigits_append h (endsDigits_exponent hexponent hrest)
    simp [scanFraction, hdigits, bind, Except.bind, pure, Except.pure]

theorem endsDigits_fraction {fraction : Option (List Char)} {s rest : List Char}
    (h : SpellsFraction fraction s) (hrest : EndsDigits rest) : EndsDigits (s ++ rest) := by
  cases h with
  | absent => exact hrest
  | present => simp

def minus (negative : Bool) : List Char := if negative then ['-'] else []

/-- A literal with the parts of `n`. -/
inductive Spells (n : Numeral) : List Char → Prop where
  | parts {fraction exponent : List Char} (hwhole : IsWhole n.whole)
      (hfraction : SpellsFraction n.fraction fraction)
      (hexponent : SpellsExponent n.exponent exponent) :
      Spells n (minus n.negative ++ (n.whole ++ (fraction ++ exponent)))

theorem scanMinus_of_isDigit {c : Char} (h : c.isDigit = true) (s : List Char) :
    scanMinus (c :: s) = (false, c :: s) := by
  unfold scanMinus
  split
  · next heq =>
    obtain ⟨rfl, -⟩ := List.cons.inj heq
    exact absurd h (by decide)
  · rfl

theorem scanMinus_append {digits : List Char} (negative : Bool) (h : IsDigits digits)
    (rest : List Char) :
    scanMinus (minus negative ++ (digits ++ rest)) = (negative, digits ++ rest) := by
  cases negative with
  | true => rfl
  | false =>
    cases digits with
    | nil => exact absurd rfl h.1
    | cons c digits => exact scanMinus_of_isDigit (h.2 c List.mem_cons_self) _

theorem scan_append {n : Numeral} {s rest : List Char} (h : n.Spells s) (hrest : EndsNumber rest) :
    scan (s ++ rest) = .ok (n, rest) := by
  obtain ⟨hwhole, hfraction, hexponent⟩ := h
  have hends := endsDigits_fraction hfraction (endsDigits_exponent hexponent hrest)
  unfold scan
  simp only [List.append_assoc]
  rw [scanMinus_append _ hwhole.1, scanWhole_append hwhole hends]
  simp [bind, Except.bind, scanFraction_append hfraction hexponent hrest,
    scanExponent_append hexponent hrest, pure, Except.pure]

theorem Spells.eq_cons {n : Numeral} {s : List Char} (h : n.Spells s) :
    ∃ c tail, s = c :: tail ∧ startsNumber c = true := by
  obtain ⟨hwhole, -, -⟩ := h
  cases hnegative : n.negative with
  | true => exact ⟨'-', _, rfl, by decide⟩
  | false =>
    cases hdigits : n.whole with
    | nil => exact absurd hdigits hwhole.1.1
    | cons c digits =>
      have hc : c.isDigit = true := hwhole.1.2 c (by simp [hdigits])
      exact ⟨c, _, rfl, by simp [startsNumber, hc]⟩

/-! ### Integers -/

theorem isDigit_of_mem_toDigits {n : Nat} {c : Char} (h : c ∈ Nat.toDigits 10 n) :
    c.isDigit = true :=
  Nat.isDigit_of_mem_toDigits (by decide) (by decide) h

/-- Only zero is written with a zero in front. -/
theorem eq_nil_of_toDigits_eq_zero_cons {n : Nat} {digits : List Char}
    (h : Nat.toDigits 10 n = '0' :: digits) : digits = [] := by
  induction n using Nat.strongRecOn generalizing digits with
  | _ n ih =>
    by_cases hn : n < 10
    · rw [Nat.toDigits_of_lt_base hn] at h
      exact (List.cons.inj h).2.symm
    · rw [Nat.toDigits_of_base_le (by decide) (Nat.le_of_not_lt hn)] at h
      cases hfront : Nat.toDigits 10 (n / 10) with
      | nil => exact absurd hfront Nat.toDigits_ne_nil
      | cons c front =>
        rw [hfront] at h
        obtain ⟨rfl, -⟩ := List.cons.inj h
        have hnil := ih (n / 10) (by omega) hfront
        have hvalue := Nat.ofDigitChars_ten_toDigits (n := n / 10)
        rw [hfront, hnil] at hvalue
        have hzero : Nat.ofDigitChars 10 ['0'] 0 = 0 := by decide
        omega

theorem isWhole_toDigits (n : Nat) : IsWhole (Nat.toDigits 10 n) :=
  ⟨⟨Nat.toDigits_ne_nil, fun _ => isDigit_of_mem_toDigits⟩,
    fun _ => eq_nil_of_toDigits_eq_zero_cons⟩

def ofInt (n : Int) : Numeral := ⟨n < 0, Nat.toDigits 10 n.natAbs, none, none⟩

theorem spells_writeInt (n : Int) : (ofInt n).Spells (writeInt n) := by
  have htext : writeInt n = minus (ofInt n).negative ++ ((ofInt n).whole ++ ([] ++ [])) := by
    by_cases hn : n < 0 <;> simp [writeInt, ofInt, minus, hn]
  rw [htext]
  exact .parts (isWhole_toDigits _) .absent .absent

theorem integer?_ofInt {n : Int} (hlow : Int64.minValue.toInt ≤ n) (hhigh : n < UInt64.size) :
    (ofInt n).integer? = some n := by
  have hmagnitude : digitsValue (Nat.toDigits 10 n.natAbs) = n.natAbs :=
    Nat.ofDigitChars_ten_toDigits
  by_cases hn : n < 0
  · have hneg : -(n.natAbs : Int) = n := by omega
    simp only [integer?, ofInt, hmagnitude, hn, hneg, hlow, decide_true, and_self, and_true,
      ↓reduceIte]
    rw [if_pos (by omega)]
  · simp only [integer?, ofInt, hmagnitude, hn, decide_false, and_self, Bool.false_eq_true,
      ↓reduceIte]
    rw [if_pos (by omega)]
    exact congrArg some (by omega)

end Numeral

theorem mapError_ok {ε ε' α : Type} (f : ε → ε') (a : α) :
    (Except.ok a : Except ε α).mapError f = .ok a := rfl

theorem readNumber_writeInt {n : Int} (hlow : Int64.minValue.toInt ≤ n) (hhigh : n < UInt64.size)
    {rest : List Char} (hrest : EndsNumber rest) :
    readNumber (writeInt n ++ rest) = .ok (.integer n, rest) := by
  unfold readNumber
  rw [Numeral.scan_append (Numeral.spells_writeInt n) hrest]
  simp [mapError_ok, bind, Except.bind, Numeral.value, Numeral.integer?_ofInt hlow hhigh,
    pure, Except.pure]

end HardwareKeys.Json

import HardwareKeys.Json.Text

/-!
# Texts

The grammar of what stands between the quotes of a text, and the reader that follows it exactly: a character stands for itself or is escaped, and a pair of surrogate escapes is one character. Every character is written in a form of its own, so a text is read back whatever characters it holds.
-/

namespace HardwareKeys.Json

/-- Four hexadecimal digits. -/
def SpellsUnit (digits : List Char) (unit : Nat) : Prop :=
  digits.length = 4 ∧ Text.readHex digits = some unit

/-- A character that may stand for itself. -/
structure IsPlain (c : Char) : Prop where
  notQuote : c ≠ '"'
  notBackslash : c ≠ '\\'
  notControl : isControl c = false

/-- The ways to write one character inside a text. -/
inductive SpellsChar : List Char → Char → Prop where
  | plain {c : Char} (h : IsPlain c) : SpellsChar [c] c
  | escape {letter c : Char} (h : escaped? letter = some c) : SpellsChar ['\\', letter] c
  | unit {digits : List Char} {unit : Nat} (h : SpellsUnit digits unit)
      (hleading : isLeadingSurrogate unit = false) (htrailing : isTrailingSurrogate unit = false) :
      SpellsChar ('\\' :: 'u' :: digits) (Char.ofNat unit)
  | pair {high low : List Char} {leading trailing : Nat} (hhigh : SpellsUnit high leading)
      (hlow : SpellsUnit low trailing) (hleading : isLeadingSurrogate leading = true)
      (htrailing : isTrailingSurrogate trailing = true) :
      SpellsChar ('\\' :: 'u' :: (high ++ '\\' :: 'u' :: low))
        (Char.ofNat (joinSurrogates leading trailing))

/-- What stands between the quotes of a text of the given characters. -/
inductive SpellsChars : List Char → List Char → Prop where
  | nil : SpellsChars [] []
  | cons {form s chars : List Char} {c : Char} (hform : SpellsChar form c)
      (hs : SpellsChars s chars) : SpellsChars (form ++ s) (c :: chars)

theorem length_le_utf8Length (s : List Char) : s.length ≤ utf8Length s := by
  induction s with
  | nil => simp
  | cons c s ih =>
    have hsize := c.utf8Size_pos
    simp only [utf8Length, List.foldr_cons, List.length_cons] at ih ⊢
    omega

theorem utf8Size_of_hexValue? {c : Char} {digit : Nat} (h : Text.hexValue? c = some digit) :
    c.utf8Size = 1 := by
  have hle : c ≤ 'f' := by
    unfold Text.hexValue? at h
    split at h
    · next hc => exact Char.le_trans hc.2 (by decide)
    · split at h
      · next hc => exact hc.2
      · split at h
        · next hc => exact Char.le_trans hc.2 (by decide)
        · cases h
  have hval : c.val ≤ 0x7F := UInt32.le_trans hle (by decide)
  exact if_pos hval

theorem utf8Length_of_readHexFrom {value n : Nat} {s : List Char}
    (h : Text.readHexFrom value s = some n) : utf8Length s = s.length := by
  induction s generalizing value with
  | nil => rfl
  | cons c s ih =>
    unfold Text.readHexFrom at h
    split at h
    · next hc =>
      have hsize := utf8Size_of_hexValue? hc
      have hlength := ih h
      simp only [utf8Length, List.foldr_cons, List.length_cons] at hlength ⊢
      omega
    · cases h

theorem utf8Length_of_readHex {n : Nat} {s : List Char} (h : Text.readHex s = some n) :
    utf8Length s = s.length := by
  cases s with
  | nil => rfl
  | cons c s => exact utf8Length_of_readHexFrom h

theorem readUnit_eq_ok_iff {s rest : List Char} {unit : Nat} :
    readUnit s = .ok (unit, rest) ↔ ∃ digits, SpellsUnit digits unit ∧ s = digits ++ rest := by
  constructor
  · intro h
    unfold readUnit at h
    split at h
    · cases h
    · split at h
      · next hbytes _ hvalue =>
        obtain ⟨rfl, rfl⟩ := Prod.mk.inj (Except.ok.inj h)
        have hlength := utf8Length_of_readHex hvalue
        have htake := List.length_take_le 4 s
        exact ⟨s.take 4, ⟨by omega, hvalue⟩, (List.take_append_drop 4 s).symm⟩
      · cases h
  · rintro ⟨digits, ⟨hlength, hvalue⟩, rfl⟩
    have hbytes := length_le_utf8Length digits
    have htake : (digits ++ rest).take 4 = digits := by rw [← hlength, List.take_left]
    have hdrop : (digits ++ rest).drop 4 = rest := by rw [← hlength, List.drop_left]
    rw [readUnit, htake, hdrop, if_neg (by omega), hvalue]
    rfl

theorem SpellsUnit.readUnit_append {digits : List Char} {unit : Nat} (h : SpellsUnit digits unit)
    (rest : List Char) : readUnit (digits ++ rest) = .ok (unit, rest) :=
  readUnit_eq_ok_iff.mpr ⟨digits, h, rfl⟩

theorem isTrailingSurrogate_of_isLeadingSurrogate {unit : Nat}
    (h : isLeadingSurrogate unit = true) : isTrailingSurrogate unit = false := by
  simp only [isLeadingSurrogate, Bool.and_eq_true, decide_eq_true_eq] at h
  simp only [isTrailingSurrogate, Bool.and_eq_false_iff, decide_eq_false_iff_not]
  omega

/-- The letter of a hexadecimal escape is no escape by itself. -/
theorem escaped?_u : escaped? 'u' = none := by decide

theorem readEscape_letter {letter c : Char} (h : escaped? letter = some c) (rest : List Char) :
    readEscape (letter :: rest) = .ok (c, rest) := by
  unfold readEscape
  split
  · next heq => cases heq
  · next heq =>
    obtain ⟨rfl, -⟩ := List.cons.inj heq
    simp [escaped?_u] at h
  · next heq =>
    obtain ⟨rfl, rfl⟩ := List.cons.inj heq
    simp [h, pure, Except.pure]

theorem nextChar_escape {s rest : List Char} {c : Char} (h : readEscape s = .ok (c, rest)) :
    nextChar ('\\' :: s) = .ok (some c, rest) := by
  simp [nextChar, h, bind, Except.bind, pure, Except.pure]

theorem nextChar_plain {c : Char} (hquote : c ≠ '"') (hbackslash : c ≠ '\\')
    (hcontrol : isControl c = false) (rest : List Char) :
    nextChar (c :: rest) = .ok (some c, rest) := by
  simp [nextChar, hquote, hbackslash, hcontrol, pure, Except.pure]

theorem SpellsChar.nextChar_append {form : List Char} {c : Char} (h : SpellsChar form c)
    (rest : List Char) : nextChar (form ++ rest) = .ok (some c, rest) := by
  cases h with
  | plain h => exact nextChar_plain h.notQuote h.notBackslash h.notControl rest
  | escape h => exact nextChar_escape (readEscape_letter h rest)
  | unit h hleading htrailing =>
    simp only [List.cons_append]
    refine nextChar_escape ?_
    rw [readEscape, h.readUnit_append]
    simp [bind, Except.bind, htrailing, hleading, pure, Except.pure]
  | pair hhigh hlow hleading htrailing =>
    simp only [List.cons_append, List.append_assoc]
    refine nextChar_escape ?_
    rw [readEscape, hhigh.readUnit_append]
    simp [bind, Except.bind, isTrailingSurrogate_of_isLeadingSurrogate hleading, hleading,
      readTrailing, hlow.readUnit_append, htrailing, pure, Except.pure]

theorem readChars_of_nextChar {s tail rest chars : List Char} {c : Char}
    (hnext : nextChar s = .ok (some c, tail)) (hchars : readChars tail = .ok (chars, rest)) :
    readChars s = .ok (c :: chars, rest) := by
  rw [readChars]
  split
  · next h => simp [hnext] at h
  · next h => simp [hnext] at h
  · next h =>
    obtain ⟨rfl, rfl⟩ : _ = c ∧ _ = tail := by simpa [hnext, eq_comm] using h
    simp [hchars, bind, Except.bind, pure, Except.pure]

theorem readChars_quote (rest : List Char) : readChars ('"' :: rest) = .ok ([], rest) := by
  rw [readChars]
  rfl

theorem SpellsChars.readChars_append {s chars : List Char} (h : SpellsChars s chars)
    (rest : List Char) : readChars (s ++ '"' :: rest) = .ok (chars, rest) := by
  induction h with
  | nil => exact readChars_quote rest
  | cons hform _ ih =>
    rw [List.append_assoc]
    exact readChars_of_nextChar (hform.nextChar_append _) ih

/-- A leading surrogate is read together with the trailing one that has to follow it. -/
theorem exists_of_readTrailing {leading : Nat} {s rest : List Char} {c : Char}
    (h : readTrailing leading s = .ok (c, rest)) :
    ∃ low trailing, SpellsUnit low trailing ∧ isTrailingSurrogate trailing = true ∧
      c = Char.ofNat (joinSurrogates leading trailing) ∧ s = '\\' :: 'u' :: (low ++ rest) := by
  unfold readTrailing at h
  split at h
  · cases h
  · cases h
  · obtain ⟨⟨trailing, tail⟩, hunit, hresult⟩ := bind_eq_ok_iff.mp h
    obtain ⟨low, hlow, rfl⟩ := readUnit_eq_ok_iff.mp hunit
    dsimp only at hresult
    split at hresult
    · next htrailing =>
      obtain ⟨rfl, rfl⟩ := Prod.mk.inj (Except.ok.inj hresult)
      exact ⟨low, trailing, hlow, htrailing, rfl, rfl⟩
    · cases hresult
  · cases h

theorem exists_of_readEscape {s rest : List Char} {c : Char} (h : readEscape s = .ok (c, rest)) :
    ∃ form, SpellsChar ('\\' :: form) c ∧ s = form ++ rest := by
  unfold readEscape at h
  split at h
  · cases h
  · obtain ⟨⟨unit, tail⟩, hunit, hresult⟩ := bind_eq_ok_iff.mp h
    obtain ⟨digits, hdigits, rfl⟩ := readUnit_eq_ok_iff.mp hunit
    dsimp only at hresult
    split at hresult
    · cases hresult
    · next htrailing =>
      split at hresult
      · next hleading =>
        obtain ⟨low, trailing, hlow, htrailing, hc, rfl⟩ := exists_of_readTrailing hresult
        rw [hc]
        exact ⟨_, .pair hdigits hlow hleading htrailing, by simp⟩
      · next hleading =>
        obtain ⟨rfl, rfl⟩ := Prod.mk.inj (Except.ok.inj hresult)
        exact ⟨_, .unit hdigits (Bool.eq_false_iff.mpr hleading)
          (Bool.eq_false_iff.mpr htrailing), rfl⟩
  · split at h
    · next hletter =>
      cases h
      exact ⟨_, .escape hletter, rfl⟩
    · cases h

theorem nextChar_eq_ok_some_iff {s rest : List Char} {c : Char} :
    nextChar s = .ok (some c, rest) ↔ ∃ form, SpellsChar form c ∧ s = form ++ rest := by
  constructor
  · intro h
    unfold nextChar at h
    split at h
    · cases h
    · split at h
      · cases h
      · next hquote =>
        split at h
        · next hbackslash =>
          obtain ⟨⟨c, tail⟩, hescape, h⟩ := bind_eq_ok_iff.mp h
          cases h
          obtain ⟨form, hform, rfl⟩ := exists_of_readEscape hescape
          exact ⟨_, hform, by rw [hbackslash, List.cons_append]⟩
        · next hbackslash =>
          split at h
          · cases h
          · next hcontrol =>
            cases h
            exact ⟨_, .plain ⟨hquote, hbackslash, by simpa using hcontrol⟩, rfl⟩
  · rintro ⟨form, hform, rfl⟩
    exact hform.nextChar_append rest

theorem eq_cons_of_nextChar {s rest : List Char} (h : nextChar s = .ok (none, rest)) :
    s = '"' :: rest := by
  unfold nextChar at h
  split at h
  · cases h
  · split at h
    · next hquote =>
      cases h
      rw [hquote]
    · split at h
      · obtain ⟨_, -, h⟩ := bind_eq_ok_iff.mp h
        cases h
      · split at h <;> cases h

/-- Texts are read by the grammar. -/
theorem readChars_eq_ok_iff {s rest chars : List Char} :
    readChars s = .ok (chars, rest) ↔ ∃ body, SpellsChars body chars ∧ s = body ++ '"' :: rest := by
  constructor
  · intro h
    fun_induction readChars s generalizing chars rest with
    | case1 => cases h
    | case2 s tail hnext =>
      cases h
      exact ⟨[], .nil, eq_cons_of_nextChar hnext⟩
    | case3 s c tail hnext ih =>
      obtain ⟨⟨chars, last⟩, hchars, h⟩ := bind_eq_ok_iff.mp h
      cases h
      obtain ⟨form, hform, rfl⟩ := nextChar_eq_ok_some_iff.mp hnext
      obtain ⟨body, hbody, rfl⟩ := ih hchars
      exact ⟨_, .cons hform hbody, (List.append_assoc _ _ _).symm⟩
  · rintro ⟨body, hbody, rfl⟩
    exact hbody.readChars_append rest

/-! ### Writing -/

theorem spellsChar_controlEscape {c : Char} (h : isControl c = true) :
    SpellsChar ['\\', 'u', '0', '0', Nat.digitChar (c.toNat / 16), Nat.digitChar (c.toNat % 16)]
      c := by
  have hc : c.toNat < 0x20 := by simpa [isControl] using h
  have hunit : SpellsUnit ['0', '0', Nat.digitChar (c.toNat / 16), Nat.digitChar (c.toNat % 16)]
      c.toNat := by
    have hzero : Text.hexValue? '0' = some 0 := by decide
    have hhigh := Text.hexValue?_digitChar (d := c.toNat / 16) (by omega)
    have hlow := Text.hexValue?_digitChar (Nat.mod_lt c.toNat (by decide : 16 > 0))
    have hvalue := Nat.div_add_mod c.toNat 16
    exact ⟨rfl, by simpa [Text.readHex, Text.readHexFrom, hzero, hhigh, hlow] using hvalue⟩
  have hleading : isLeadingSurrogate c.toNat = false := by
    simp only [isLeadingSurrogate, Bool.and_eq_false_iff, decide_eq_false_iff_not]
    omega
  have htrailing : isTrailingSurrogate c.toNat = false := by
    simp only [isTrailingSurrogate, Bool.and_eq_false_iff, decide_eq_false_iff_not]
    omega
  have hform := SpellsChar.unit hunit hleading htrailing
  rwa [Char.ofNat_toNat] at hform

theorem spellsChar_writeChar (c : Char) : SpellsChar (writeChar c) c := by
  unfold writeChar
  split
  all_goals try exact .escape rfl
  next hquote hbackslash _ _ _ _ _ =>
    split
    · next hcontrol => exact spellsChar_controlEscape hcontrol
    · next hcontrol => exact .plain ⟨hquote, hbackslash, by simpa using hcontrol⟩

theorem spellsChars_flatMap_writeChar (s : List Char) : SpellsChars (s.flatMap writeChar) s := by
  induction s with
  | nil => exact .nil
  | cons c s ih => exact .cons (spellsChar_writeChar c) ih

theorem readChars_flatMap_writeChar (s rest : List Char) :
    readChars (s.flatMap writeChar ++ '"' :: rest) = .ok (s, rest) :=
  (spellsChars_flatMap_writeChar s).readChars_append rest

theorem writeText_append (s rest : List Char) :
    writeText s ++ rest = '"' :: (s.flatMap writeChar ++ '"' :: rest) := by
  simp [writeText]

end HardwareKeys.Json

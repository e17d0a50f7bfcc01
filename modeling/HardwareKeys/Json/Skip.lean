import HardwareKeys.Json.Numeral
import HardwareKeys.Json.Text

/-!
# Skipping values

The value of a key that nobody asked for is checked against the grammar only: its numbers may be of any size, its escapes may be lone surrogates, and its arrays and objects may be nested to any depth. The brackets that are still open stand in a list of frames, innermost first.
-/

namespace HardwareKeys.Json

inductive Frame where
  | array
  | object
deriving DecidableEq

def skipEscape : List Char → Except ReadError (List Char)
  | [] => throw .endOfText
  | 'u' :: s => do
    let (_, rest) ← readUnit s
    pure rest
  | c :: s => if (escaped? c).isSome then pure s else throw .invalidEscape

theorem skipEscape_length_lt {s rest : List Char} (h : skipEscape s = .ok rest) :
    rest.length < s.length := by
  unfold skipEscape at h
  split at h
  · cases h
  · obtain ⟨⟨unit, tail⟩, hunit, h⟩ := bind_eq_ok_iff.mp h
    cases h
    exact Nat.lt_succ_of_le (readUnit_length_le hunit)
  · split at h
    · cases h
      simp
    · cases h

/-- The text after the closing quote, from the text after the opening one. -/
def skipChars (s : List Char) : Except ReadError (List Char) :=
  match s with
  | [] => .error .endOfText
  | c :: rest =>
    if c = '"' then .ok rest
    else if c = '\\' then
      match _hescape : skipEscape rest with
      | .error e => .error e
      | .ok rest => skipChars rest
    else if isControl c then .error .controlCharacter
    else skipChars rest
termination_by s.length
decreasing_by
  · have := skipEscape_length_lt _hescape
    simp only [List.length_cons]
    omega
  · simp

theorem skipChars_length_lt {s rest : List Char} (h : skipChars s = .ok rest) :
    rest.length < s.length := by
  fun_induction skipChars s generalizing rest with
  | case1 => cases h
  | case2 => cases h; simp
  | case3 => cases h
  | case4 tail rest' hescape _ ih =>
    have := skipEscape_length_lt hescape
    have := ih h
    simp only [List.length_cons]
    omega
  | case5 => cases h
  | case6 c tail _ _ _ ih =>
    have := ih h
    simp only [List.length_cons]
    omega

def skipNumber (s : List Char) : Except ReadError (List Char) := do
  let (_, rest) ← (Numeral.scan s).mapError fun _ => .invalidNumber
  pure rest

/-- A key with its quotes and the colon after it. -/
def skipKey (s : List Char) : Except ReadError (List Char) :=
  match skipBlanks s with
  | [] => throw .endOfObject
  | '"' :: rest => do
    let rest ← skipChars rest
    expectColon rest
  | _ => throw .keyNotText

/-- A keyword, a text or a number, from its first character. -/
def skipScalar : List Char → Except ReadError (List Char)
  | 'n' :: rest => expectLetters ['u', 'l', 'l'] rest
  | 't' :: rest => expectLetters ['r', 'u', 'e'] rest
  | 'f' :: rest => expectLetters ['a', 'l', 's', 'e'] rest
  | '"' :: rest => skipChars rest
  | c :: rest =>
    if Numeral.startsNumber c then skipNumber (c :: rest) else throw .expectedValue
  | [] => throw .endOfValue

/-- The start of a value: a whole scalar or a pair of brackets without content, or else the bracket it opens and all that stands before the first value inside. -/
def openValue (s : List Char) : Except ReadError (Option Frame × List Char) :=
  match skipBlanks s with
  | '[' :: rest =>
    match skipBlanks rest with
    | [] => throw .endOfArray
    | ']' :: rest => pure (none, rest)
    | rest => pure (some .array, rest)
  | '\x7b' :: rest =>
    match skipBlanks rest with
    | [] => throw .endOfObject
    | '\x7d' :: rest => pure (none, rest)
    | rest => do
      let rest ← skipKey rest
      pure (some .object, rest)
  | rest => do
    let rest ← skipScalar rest
    pure (none, rest)

/-- What follows a value inside the open frames: the frames still open where the next value starts, or none where the outermost value ends. -/
def closeFrames : List Frame → List Char → Except ReadError (List Frame × List Char)
  | [], s => pure ([], s)
  | .array :: frames, s =>
    match skipBlanks s with
    | [] => throw .endOfArray
    | ',' :: rest => pure (.array :: frames, rest)
    | ']' :: rest => closeFrames frames rest
    | _ => throw .expectedCommaOrBracket
  | .object :: frames, s =>
    match skipBlanks s with
    | [] => throw .endOfObject
    | ',' :: rest => do
      let rest ← skipKey rest
      pure (.object :: frames, rest)
    | '\x7d' :: rest => closeFrames frames rest
    | _ => throw .expectedCommaOrBrace

theorem skipNumber_length_lt {s rest : List Char} (h : skipNumber s = .ok rest) :
    rest.length < s.length := by
  obtain ⟨⟨numeral, tail⟩, hscan, h⟩ := bind_eq_ok_iff.mp h
  cases h
  exact Numeral.scan_length_lt (mapError_eq_ok_iff.mp hscan)

theorem skipKey_length_lt {s rest : List Char} (h : skipKey s = .ok rest) :
    rest.length < s.length := by
  unfold skipKey at h
  split at h
  · cases h
  · next hs =>
    obtain ⟨tail, hchars, h⟩ := bind_eq_ok_iff.mp h
    have := length_lt_of_skipBlanks hs
    have := skipChars_length_lt hchars
    have := expectColon_length_lt h
    omega
  · cases h

theorem skipScalar_length_lt {s rest : List Char} (h : skipScalar s = .ok rest) :
    rest.length < s.length := by
  unfold skipScalar at h
  split at h
  · exact Nat.lt_succ_of_le (expectLetters_length_le h)
  · exact Nat.lt_succ_of_le (expectLetters_length_le h)
  · exact Nat.lt_succ_of_le (expectLetters_length_le h)
  · exact Nat.lt_succ_of_lt (skipChars_length_lt h)
  · split at h
    · exact skipNumber_length_lt h
    · cases h
  · cases h

theorem openValue_length_lt {s rest : List Char} {frame : Option Frame}
    (h : openValue s = .ok (frame, rest)) : rest.length < s.length := by
  unfold openValue at h
  split at h
  · next tail hs =>
    have := length_lt_of_skipBlanks hs
    have := skipBlanks_length_le tail
    split at h
    · cases h
    · next hclose =>
      cases h
      have := length_lt_of_skipBlanks hclose
      omega
    · cases h
      omega
  · next tail hs =>
    have := length_lt_of_skipBlanks hs
    have := skipBlanks_length_le tail
    split at h
    · cases h
    · next hclose =>
      cases h
      have := length_lt_of_skipBlanks hclose
      omega
    · obtain ⟨last, hkey, h⟩ := bind_eq_ok_iff.mp h
      cases h
      have := skipKey_length_lt hkey
      omega
  · obtain ⟨last, hscalar, h⟩ := bind_eq_ok_iff.mp h
    cases h
    exact Nat.lt_of_lt_of_le (skipScalar_length_lt hscalar) (skipBlanks_length_le s)

theorem closeFrames_length_le {frames last : List Frame} {s rest : List Char}
    (h : closeFrames frames s = .ok (last, rest)) : rest.length ≤ s.length := by
  induction frames generalizing s with
  | nil =>
    cases h
    exact Nat.le_refl _
  | cons frame frames ih =>
    cases frame with
    | array =>
      simp only [closeFrames] at h
      split at h
      · cases h
      · next hs =>
        cases h
        exact Nat.le_of_lt (length_lt_of_skipBlanks hs)
      · next hs => exact Nat.le_trans (ih h) (Nat.le_of_lt (length_lt_of_skipBlanks hs))
      · cases h
    | object =>
      simp only [closeFrames] at h
      split at h
      · cases h
      · next hs =>
        obtain ⟨last, hkey, h⟩ := bind_eq_ok_iff.mp h
        cases h
        have := skipKey_length_lt hkey
        have := length_lt_of_skipBlanks hs
        omega
      · next hs => exact Nat.le_trans (ih h) (Nat.le_of_lt (length_lt_of_skipBlanks hs))
      · cases h

/-- The text after a value inside the open frames and after everything that closes them. -/
def skipFrom (frames : List Frame) (s : List Char) : Except ReadError (List Char) :=
  match _hopen : openValue s with
  | .error e => .error e
  | .ok (some frame, rest) => skipFrom (frame :: frames) rest
  | .ok (none, rest) =>
    match _hclose : closeFrames frames rest with
    | .error e => .error e
    | .ok ([], rest) => .ok rest
    | .ok (frame :: frames, rest) => skipFrom (frame :: frames) rest
termination_by s.length
decreasing_by
  · exact openValue_length_lt _hopen
  · have := openValue_length_lt _hopen
    have := closeFrames_length_le _hclose
    omega

/-- The text after one value of any kind. -/
def skipValue (s : List Char) : Except ReadError (List Char) := skipFrom [] s

theorem skipFrom_length_lt {frames : List Frame} {s rest : List Char}
    (h : skipFrom frames s = .ok rest) : rest.length < s.length := by
  fun_induction skipFrom frames s with
  | case1 => cases h
  | case2 frames s frame tail hopen ih =>
    exact Nat.lt_trans (ih h) (openValue_length_lt hopen)
  | case3 => cases h
  | case4 frames s tail hopen after hclose =>
    cases h
    exact Nat.lt_of_le_of_lt (closeFrames_length_le hclose) (openValue_length_lt hopen)
  | case5 frames s tail hopen frame rest' after hclose ih =>
    exact Nat.lt_trans (ih h)
      (Nat.lt_of_le_of_lt (closeFrames_length_le hclose) (openValue_length_lt hopen))

end HardwareKeys.Json

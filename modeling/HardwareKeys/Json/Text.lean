import HardwareKeys.Json.Reader
import HardwareKeys.Text.Hex

/-!
# Texts in JSON

A text stands between double quotes. Only quotes, backslashes and the characters below the space are escaped when a text is written; every escape of JSON is understood when it is read, and a pair of surrogate escapes is one character.
-/

namespace HardwareKeys.Json

def isLeadingSurrogate (unit : Nat) : Bool := 0xD800 ≤ unit && unit < 0xDC00

def isTrailingSurrogate (unit : Nat) : Bool := 0xDC00 ≤ unit && unit < 0xE000

/-- The code point of a pair of surrogates. -/
def joinSurrogates (leading trailing : Nat) : Nat :=
  0x10000 + (leading - 0xD800) * 0x400 + (trailing - 0xDC00)

def utf8Length (s : List Char) : Nat := s.foldr (fun c length => c.utf8Size + length) 0

/-- The number of the four hexadecimal digits that follow `\u`. A text with fewer than four bytes left has ended. -/
def readUnit (s : List Char) : Except ReadError (Nat × List Char) :=
  if utf8Length (s.take 4) < 4 then throw .endOfText
  else
    match Text.readHex (s.take 4) with
    | some unit => pure (unit, s.drop 4)
    | none => throw .invalidEscape

/-- The character of a leading surrogate and the trailing one that has to follow it. -/
def readTrailing (leading : Nat) : List Char → Except ReadError (Char × List Char)
  | [] | ['\\'] => throw .endOfText
  | '\\' :: 'u' :: s => do
    let (unit, rest) ← readUnit s
    if isTrailingSurrogate unit then pure (Char.ofNat (joinSurrogates leading unit), rest)
    else throw .loneSurrogate
  | _ => throw .unfinishedSurrogate

/-- The character that one letter after a backslash stands for. -/
def escaped? (c : Char) : Option Char :=
  match c with
  | '"' => some '"'
  | '\\' => some '\\'
  | '/' => some '/'
  | 'b' => some '\x08'
  | 'f' => some '\x0c'
  | 'n' => some '\n'
  | 'r' => some '\r'
  | 't' => some '\t'
  | _ => none

/-- The character of an escape, after its backslash. -/
def readEscape : List Char → Except ReadError (Char × List Char)
  | [] => throw .endOfText
  | 'u' :: s => do
    let (unit, rest) ← readUnit s
    if isTrailingSurrogate unit then throw .loneSurrogate
    else if isLeadingSurrogate unit then readTrailing unit rest
    else pure (Char.ofNat unit, rest)
  | c :: s =>
    match escaped? c with
    | some c => pure (c, s)
    | none => throw .invalidEscape

def isControl (c : Char) : Bool := c.toNat < 0x20

/-- The next character of a text, or `none` where the closing quote stands. -/
def nextChar : List Char → Except ReadError (Option Char × List Char)
  | [] => throw .endOfText
  | c :: s =>
    if c = '"' then pure (none, s)
    else if c = '\\' then do
      let (c, rest) ← readEscape s
      pure (some c, rest)
    else if isControl c then throw .controlCharacter
    else pure (some c, s)

theorem readUnit_length_le {s rest : List Char} {unit : Nat} (h : readUnit s = .ok (unit, rest)) :
    rest.length ≤ s.length := by
  unfold readUnit at h
  split at h
  · cases h
  · split at h
    · cases h
      simp
    · cases h

theorem readTrailing_length_le {leading : Nat} {s rest : List Char} {c : Char}
    (h : readTrailing leading s = .ok (c, rest)) : rest.length ≤ s.length := by
  unfold readTrailing at h
  split at h
  · cases h
  · cases h
  · obtain ⟨⟨unit, tail⟩, hunit, h⟩ := bind_eq_ok_iff.mp h
    have := readUnit_length_le hunit
    dsimp only at h
    split at h
    · obtain ⟨-, rfl⟩ := Prod.mk.inj (Except.ok.inj h)
      simp only [List.length_cons]
      omega
    · cases h
  · cases h

theorem readEscape_length_lt {s rest : List Char} {c : Char} (h : readEscape s = .ok (c, rest)) :
    rest.length < s.length := by
  unfold readEscape at h
  split at h
  · cases h
  · obtain ⟨⟨unit, tail⟩, hunit, h⟩ := bind_eq_ok_iff.mp h
    have := readUnit_length_le hunit
    dsimp only at h
    simp only [List.length_cons]
    split at h
    · cases h
    · split at h
      · have := readTrailing_length_le h
        omega
      · obtain ⟨-, rfl⟩ := Prod.mk.inj (Except.ok.inj h)
        omega
  · split at h
    · cases h
      simp
    · cases h

theorem nextChar_length_lt {s rest : List Char} {c : Option Char}
    (h : nextChar s = .ok (c, rest)) : rest.length < s.length := by
  unfold nextChar at h
  split at h
  · cases h
  · split at h
    · cases h
      simp
    · split at h
      · obtain ⟨⟨c, tail⟩, hescape, h⟩ := bind_eq_ok_iff.mp h
        cases h
        exact Nat.lt_succ_of_lt (readEscape_length_lt hescape)
      · split at h
        · cases h
        · cases h
          simp

/-- The characters of a text after its opening quote. -/
def readChars (s : List Char) : Except ReadError (List Char × List Char) :=
  match _hnext : nextChar s with
  | .error e => .error e
  | .ok (none, rest) => .ok ([], rest)
  | .ok (some c, rest) => do
    let (chars, rest) ← readChars rest
    pure (c :: chars, rest)
termination_by s.length
decreasing_by exact nextChar_length_lt _hnext

theorem readChars_length_lt {s rest chars : List Char} (h : readChars s = .ok (chars, rest)) :
    rest.length < s.length := by
  fun_induction readChars s generalizing chars rest with
  | case1 => cases h
  | case2 s rest hnext =>
    cases h
    exact nextChar_length_lt hnext
  | case3 s c tail hnext ih =>
    obtain ⟨⟨chars, last⟩, hchars, h⟩ := bind_eq_ok_iff.mp h
    cases h
    exact Nat.lt_trans (ih hchars) (nextChar_length_lt hnext)

/-! ### Writing -/

def writeChar (c : Char) : List Char :=
  match c with
  | '"' => ['\\', '"']
  | '\\' => ['\\', '\\']
  | '\x08' => ['\\', 'b']
  | '\x0c' => ['\\', 'f']
  | '\n' => ['\\', 'n']
  | '\r' => ['\\', 'r']
  | '\t' => ['\\', 't']
  | c =>
    if isControl c then
      ['\\', 'u', '0', '0', Nat.digitChar (c.toNat / 16), Nat.digitChar (c.toNat % 16)]
    else [c]

def writeText (s : List Char) : List Char := '"' :: s.flatMap writeChar ++ ['"']

end HardwareKeys.Json

import HardwareKeys.Json.Error

/-!
# Readers

A reader takes a value from the front of a text and returns it with the text that is left. It always takes at least one character, so loops over a reader end.
-/

namespace HardwareKeys.Json

structure Reader (α : Type) where
  run : List Char → Except ReadError (α × List Char)
  shrinks : ∀ {s : List Char} {a : α} {rest : List Char},
    run s = .ok (a, rest) → rest.length < s.length

/-- The characters that may stand between tokens: space, tab, line feed, carriage return. -/
def isBlank (c : Char) : Bool := c = ' ' || c = '\t' || c = '\n' || c = '\r'

def skipBlanks (s : List Char) : List Char := s.dropWhile isBlank

theorem skipBlanks_length_le (s : List Char) : (skipBlanks s).length ≤ s.length :=
  (List.dropWhile_sublist isBlank).length_le

theorem length_lt_of_skipBlanks {s rest : List Char} {c : Char} (h : skipBlanks s = c :: rest) :
    rest.length < s.length := by
  have := skipBlanks_length_le s
  simp only [h, List.length_cons] at this
  omega

/-- The text that is left holds blanks only. -/
def expectEnd (s : List Char) : Except ReadError Unit :=
  if skipBlanks s = [] then .ok () else .error .trailingCharacters

def expectColon (s : List Char) : Except ReadError (List Char) :=
  match skipBlanks s with
  | [] => .error .endOfObject
  | ':' :: rest => .ok rest
  | _ => .error .expectedColon

theorem expectColon_length_lt {s rest : List Char} (h : expectColon s = .ok rest) :
    rest.length < s.length := by
  unfold expectColon at h
  split at h
  · cases h
  · next hs =>
    cases h
    exact length_lt_of_skipBlanks hs
  · cases h

/-- The rest of a keyword, letter by letter. -/
def expectLetters : List Char → List Char → Except ReadError (List Char)
  | [], s => .ok s
  | _ :: _, [] => .error .endOfValue
  | letter :: letters, c :: s =>
    if c = letter then expectLetters letters s else .error .expectedKeyword

theorem expectLetters_length_le {letters s rest : List Char}
    (h : expectLetters letters s = .ok rest) : rest.length ≤ s.length := by
  induction letters generalizing s with
  | nil => cases h; exact Nat.le_refl _
  | cons letter letters ih =>
    match s with
    | [] => cases h
    | c :: s =>
      simp only [expectLetters] at h
      split at h
      · exact Nat.le_succ_of_le (ih h)
      · cases h

/-- Goes on to the next item of an array: `true` with the text that starts the item, or `false` with the text after the closing bracket. -/
def nextItem (first : Bool) (s : List Char) : Except ReadError (Bool × List Char) :=
  match skipBlanks s with
  | [] => .error .endOfArray
  | ']' :: rest => .ok (false, rest)
  | c :: rest =>
    if first then .ok (true, c :: rest)
    else if c = ',' then
      match skipBlanks rest with
      | [] => .error .endOfValue
      | ']' :: _ => .error .trailingComma
      | item => .ok (true, item)
    else .error .expectedCommaOrBracket

theorem nextItem_length_le {first more : Bool} {s rest : List Char}
    (h : nextItem first s = .ok (more, rest)) : rest.length ≤ s.length := by
  unfold nextItem at h
  split at h
  · cases h
  · next hs =>
    cases h
    exact Nat.le_of_lt (length_lt_of_skipBlanks hs)
  · next c tail _ hs =>
    have := length_lt_of_skipBlanks hs
    have := skipBlanks_length_le tail
    split at h
    · cases h
      exact hs ▸ skipBlanks_length_le s
    · split at h
      · split at h
        · cases h
        · cases h
        · cases h
          omega
      · cases h

/-- Goes on to the next entry of an object: `true` with the text after the opening quote of its key, or `false` with the text after the closing brace. -/
def nextEntry (first : Bool) (s : List Char) : Except ReadError (Bool × List Char) :=
  match skipBlanks s with
  | [] => .error .endOfObject
  | '\x7d' :: rest => .ok (false, rest)
  | c :: rest =>
    if first then
      if c = '"' then .ok (true, rest) else .error .keyNotText
    else if c = ',' then
      match skipBlanks rest with
      | [] => .error .endOfValue
      | '"' :: key => .ok (true, key)
      | '\x7d' :: _ => .error .trailingComma
      | _ => .error .keyNotText
    else .error .expectedCommaOrBrace

theorem nextEntry_length_lt {first more : Bool} {s rest : List Char}
    (h : nextEntry first s = .ok (more, rest)) : rest.length < s.length := by
  unfold nextEntry at h
  split at h
  · cases h
  · next hs =>
    cases h
    exact length_lt_of_skipBlanks hs
  · next hs =>
    have := length_lt_of_skipBlanks hs
    split at h
    · split at h
      · cases h
        exact this
      · cases h
    · split at h
      · split at h
        · cases h
        · next hkey =>
          cases h
          exact Nat.lt_trans (length_lt_of_skipBlanks hkey) this
        · cases h
        · cases h
      · cases h

namespace Reader

variable {α β : Type}

/-- Reads a value and makes another of it, or rejects it. -/
def mapOk (r : Reader α) (f : α → Except ReadError β) : Reader β where
  run s := do
    let (a, rest) ← r.run s
    let b ← f a
    pure (b, rest)
  shrinks h := by
    obtain ⟨⟨a, rest⟩, hrun, h⟩ := bind_eq_ok_iff.mp h
    obtain ⟨b, -, h⟩ := bind_eq_ok_iff.mp h
    cases h
    exact r.shrinks hrun

/-- `null`, or a value. -/
def orNull (r : Reader α) : Reader (Option α) where
  run s :=
    match skipBlanks s with
    | 'n' :: rest => do
      let rest ← expectLetters ['u', 'l', 'l'] rest
      pure (none, rest)
    | _ => do
      let (a, rest) ← r.run s
      pure (some a, rest)
  shrinks h := by
    split at h
    · next hs =>
      obtain ⟨rest, hletters, h⟩ := bind_eq_ok_iff.mp h
      cases h
      exact Nat.lt_of_le_of_lt (expectLetters_length_le hletters) (length_lt_of_skipBlanks hs)
    · obtain ⟨⟨a, rest⟩, hrun, h⟩ := bind_eq_ok_iff.mp h
      cases h
      exact r.shrinks hrun

/-- The items of an array after its opening bracket, each read by `r`. -/
def items (r : Reader α) (first : Bool) (s : List Char) :
    Except ReadError (List α × List Char) :=
  match _hnext : nextItem first s with
  | .error e => .error e
  | .ok (false, rest) => .ok ([], rest)
  | .ok (true, item) =>
    match _hitem : r.run item with
    | .error e => .error e
    | .ok (a, rest) =>
      match items r false rest with
      | .error e => .error e
      | .ok (list, rest) => .ok (a :: list, rest)
termination_by s.length
decreasing_by
  have := nextItem_length_le _hnext
  have := r.shrinks _hitem
  omega

theorem items_length_le {r : Reader α} {first : Bool} {s rest : List Char} {list : List α}
    (h : r.items first s = .ok (list, rest)) : rest.length ≤ s.length := by
  fun_induction items r first s generalizing list rest with
  | case1 => cases h
  | case2 => cases h; exact nextItem_length_le ‹_›
  | case3 => cases h
  | case4 => cases h
  | case5 first s item hnext a tail hitem list' tail' hlist ih =>
    cases h
    have := nextItem_length_le hnext
    have := r.shrinks hitem
    have := ih hlist
    omega

end Reader

end HardwareKeys.Json

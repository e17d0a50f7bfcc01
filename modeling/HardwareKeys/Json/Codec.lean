import HardwareKeys.Json.Found
import HardwareKeys.Number.Word

/-!
# Codecs

A codec says how values of one type are read and how they are written. Here are those of the scalars, of lists and of values that may be `null`.
-/

namespace HardwareKeys.Json

namespace Reader

variable {α : Type}

def boolean : Reader Bool where
  run s :=
    match skipBlanks s with
    | 't' :: rest => do
      let rest ← expectLetters ['r', 'u', 'e'] rest
      pure (true, rest)
    | 'f' :: rest => do
      let rest ← expectLetters ['a', 'l', 's', 'e'] rest
      pure (false, rest)
    | s => throw (wrongType .boolean s)
  shrinks h := by
    split at h
    · next hs =>
      obtain ⟨rest, hletters, h⟩ := bind_eq_ok_iff.mp h
      cases h
      exact Nat.lt_of_le_of_lt (expectLetters_length_le hletters) (length_lt_of_skipBlanks hs)
    · next hs =>
      obtain ⟨rest, hletters, h⟩ := bind_eq_ok_iff.mp h
      cases h
      exact Nat.lt_of_le_of_lt (expectLetters_length_le hletters) (length_lt_of_skipBlanks hs)
    · cases h

/-- `null` alone. -/
def unit : Reader Unit where
  run s :=
    match skipBlanks s with
    | 'n' :: rest => do
      let rest ← expectLetters ['u', 'l', 'l'] rest
      pure ((), rest)
    | s => throw (wrongType .unit s)
  shrinks h := by
    split at h
    · next hs =>
      obtain ⟨rest, hletters, h⟩ := bind_eq_ok_iff.mp h
      cases h
      exact Nat.lt_of_le_of_lt (expectLetters_length_le hletters) (length_lt_of_skipBlanks hs)
    · cases h

/-- The word that `convert` makes of a number, which has to be an integer. -/
def convertInteger (expected : Expected) (convert : Int → Option α) : Number → Except ReadError α
  | .real x => throw (.invalidType (.real x) expected)
  | .integer n =>
    match convert n with
    | some a => pure a
    | none => throw (.integerOutOfRange n expected)

/-- A number of the type that `convert` makes of an integer. -/
def integer (expected : Expected) (convert : Int → Option α) : Reader α where
  run s :=
    match skipBlanks s with
    | [] => throw .endOfValue
    | c :: rest =>
      if Numeral.startsNumber c then do
        let (number, rest) ← readNumber (c :: rest)
        let a ← convertInteger expected convert number
        pure (a, rest)
      else throw (wrongType expected (c :: rest))
  shrinks {s} := by
    intro a rest h
    have hblanks := skipBlanks_length_le s
    split at h
    · cases h
    · next hs =>
      split at h
      · obtain ⟨⟨number, tail⟩, hnumber, h⟩ := bind_eq_ok_iff.mp h
        obtain ⟨a, -, h⟩ := bind_eq_ok_iff.mp h
        cases h
        rw [hs] at hblanks
        exact Nat.lt_of_lt_of_le (readNumber_length_lt hnumber) hblanks
      · cases h

/-- A text, for a reader that expects one under the name `expected`. -/
def chars (expected : Expected) : Reader (List Char) where
  run s :=
    match skipBlanks s with
    | '"' :: rest => readChars rest
    | s => throw (wrongType expected s)
  shrinks h := by
    split at h
    · next hs => exact Nat.lt_trans (readChars_length_lt h) (length_lt_of_skipBlanks hs)
    · cases h

def text : Reader String := (chars .text).mapOk fun chars => .ok (String.ofList chars)

def list (r : Reader α) : Reader (List α) where
  run s :=
    match skipBlanks s with
    | '[' :: rest => r.items true rest
    | s => throw (wrongType .sequence s)
  shrinks h := by
    split at h
    · next hs => exact Nat.lt_of_le_of_lt (items_length_le h) (length_lt_of_skipBlanks hs)
    · cases h

end Reader

def writeBoolean (value : Bool) : List Char :=
  if value then ['t', 'r', 'u', 'e'] else ['f', 'a', 'l', 's', 'e']

def writeInt (n : Int) : List Char :=
  if n < 0 then '-' :: Nat.toDigits 10 n.natAbs else Nat.toDigits 10 n.natAbs

def writeNull : List Char := ['n', 'u', 'l', 'l']

def writeArray (items : List (List Char)) : List Char := '[' :: [','].intercalate items ++ [']']

structure Codec (α : Type) where
  read : Reader α
  write : α → Except WriteError (List Char)

namespace Codec

variable {α β : Type}

def boolean : Codec Bool := ⟨.boolean, fun value => .ok (writeBoolean value)⟩

def word32 : Codec UInt32 := ⟨.integer .word32 word32?, fun n => .ok (writeInt n.toNat)⟩

def int32 : Codec Int32 := ⟨.integer .int32 int32?, fun n => .ok (writeInt n.toInt)⟩

def int64 : Codec Int64 := ⟨.integer .int64 int64?, fun n => .ok (writeInt n.toInt)⟩

def text : Codec String := ⟨.text, fun s => .ok (writeText s.toList)⟩

def list (c : Codec α) : Codec (List α) where
  read := c.read.list
  write items := do
    let texts ← items.mapM c.write
    pure (writeArray texts)

def orNull (c : Codec α) : Codec (Option α) where
  read := c.read.orNull
  write
    | none => .ok writeNull
    | some a => c.write a

/-- The codec of a type whose values are written as those of another. -/
def via (c : Codec α) (decode : α → Except ReadError β) (encode : β → Except WriteError α) :
    Codec β where
  read := c.read.mapOk decode
  write b := encode b >>= c.write

/-- The value of a whole text. -/
def readAll (c : Codec α) (s : List Char) : Except ReadError α := do
  let (a, rest) ← c.read.run s
  expectEnd rest
  pure a

def ofText (c : Codec α) (s : String) : Except ReadError α := c.readAll s.toList

def toText (c : Codec α) (a : α) : Except WriteError String := String.ofList <$> c.write a

end Codec

end HardwareKeys.Json

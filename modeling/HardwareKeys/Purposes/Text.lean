import HardwareKeys.Number.Word
import HardwareKeys.Purposes
import HardwareKeys.Text.Hex
import HardwareKeys.Text.WhiteSpace

/-!
# Purposes as text

A set is written as the names of its named bits in declaration order, then the unnamed bits as one hexadecimal number, with ` | ` between the parts. Reading takes the parts in any order, as often as they occur, with white space around each.
-/

namespace HardwareKeys.Purposes

/-- The bits with a name, one by one, then those without, if any. -/
def parts (p : Purposes) : List Purposes :=
  p.toList.map single ++ if p.unnamed.isEmpty then [] else [p.unnamed]

def hexText (p : Purposes) : List Char := '0' :: 'x' :: Text.hexDigits p.bits.toNat

/-- The parts of the written form. -/
def partTexts (p : Purposes) : List (List Char) :=
  p.toList.map (·.name.toList) ++ if p.unnamed.isEmpty then [] else [p.unnamed.hexText]

def separator : List Char := [' ', '|', ' ']

def text (p : Purposes) : List Char := separator.intercalate p.partTexts

/-- The form used in messages, where the empty set has a text too. -/
def messageText (p : Purposes) : List Char :=
  "KeyPurpose(".toList ++ (if p.isEmpty then p.hexText else p.text) ++ [')']

/-- Why a text is not one of a set of purposes. -/
inductive Fault where
  | emptyPart
  | badHex
  | unknownName
deriving DecidableEq

def Fault.message : Fault → String
  | emptyPart => "encountered empty flag"
  | badHex => "invalid hex flag"
  | unknownName => "unrecognized named flag"

def withoutPlus : List Char → List Char
  | '+' :: s => s
  | s => s

/-- A hexadecimal number of at most 32 bits, with or without a plus sign before it. -/
def readBits (s : List Char) : Option UInt32 := do
  let n ← Text.readHex (withoutPlus s)
  word32? n

/-- One part, without the white space around it. -/
def readPart : List Char → Except Fault Purposes
  | [] => throw .emptyPart
  | '0' :: 'x' :: digits =>
    match readBits digits with
    | some bits => pure ⟨bits⟩
    | none => throw .badHex
  | name =>
    match Purpose.ofName? name with
    | some purpose => pure (single purpose)
    | none => throw .unknownName

/-- The union of `p` and the parts, or the fault of the first bad part. -/
def readParts (p : Purposes) : List (List Char) → Except Fault Purposes
  | [] => pure p
  | part :: rest => do
    let q ← readPart part
    readParts (p.union q) rest

def ofText (s : List Char) : Except Fault Purposes :=
  if Text.trim s = [] then pure empty
  else readParts empty ((s.splitOn '|').map Text.trim)

end HardwareKeys.Purposes

import HardwareKeys.KeyError
import HardwareKeys.Number.Shortest
import HardwareKeys.Purposes.Text
import HardwareKeys.Text.Quoted

/-!
# Errors of reading and writing JSON

Reading goes from left to right and stops at the first error. An error is of one of three categories: the text ends too early, it is not JSON, or it is JSON that does not describe the value wanted.
-/

namespace HardwareKeys.Json

inductive Category where
  | ended
  | malformed
  | data
deriving DecidableEq

/-- A value that was found where another was expected, as far as a message shows it. -/
inductive Found where
  | null
  | boolean (value : Bool)
  | integer (value : Int)
  | real (value : Binary64)
  | text (value : String)
  | sequence
  | object
deriving DecidableEq

def Found.message : Found → String
  | null => "null"
  | boolean value => "boolean `" ++ (if value then "true" else "false") ++ "`"
  | integer value => "integer `" ++ toString value ++ "`"
  | real value => "floating point `" ++ value.text ++ "`"
  | text value => "string " ++ Text.quote value
  | sequence => "sequence"
  | object => "map"

/-- What a reader expects. -/
inductive Expected where
  | word32
  | int32
  | int64
  | boolean
  | text
  | sequence
  | unit
  | purposes
  | record (name : String)
deriving DecidableEq

def Expected.message : Expected → String
  | word32 => "u32"
  | int32 => "i32"
  | int64 => "i64"
  | boolean => "a boolean"
  | text => "a string"
  | sequence => "a sequence"
  | unit => "unit"
  | purposes => "a string value of `|` separated flags"
  | record name => "struct " ++ name

inductive ReadError where
  | endOfValue
  | endOfText
  | endOfArray
  | endOfObject
  | expectedValue
  | expectedKeyword
  | invalidNumber
  | numberOutOfRange
  | keyNotText
  | expectedColon
  | expectedCommaOrBrace
  | expectedCommaOrBracket
  | trailingComma
  | trailingCharacters
  | invalidEscape
  | controlCharacter
  | loneSurrogate
  | unfinishedSurrogate
  | invalidType (found : Found) (expected : Expected)
  | integerOutOfRange (value : Int) (expected : Expected)
  | unknownVariant (name : String) (known : List String)
  | missingField (key : String)
  | duplicateField (key : String)
  | invalidLength (count : Nat) (record : String) (size : Nat)
  | purposes (fault : Purposes.Fault)
  | offsetOutOfRange
  | rejected (error : KeyError)
deriving DecidableEq

namespace ReadError

def category : ReadError → Category
  | endOfValue | endOfText | endOfArray | endOfObject => .ended
  | expectedValue | expectedKeyword | invalidNumber | numberOutOfRange | keyNotText
  | expectedColon | expectedCommaOrBrace | expectedCommaOrBracket | trailingComma
  | trailingCharacters | invalidEscape | controlCharacter | loneSurrogate
  | unfinishedSurrogate => .malformed
  | invalidType .. | integerOutOfRange .. | unknownVariant .. | missingField _ | duplicateField _
  | invalidLength .. | purposes _ | offsetOutOfRange | rejected _ => .data

def inBackticks (s : String) : String := "`" ++ s ++ "`"

def message : ReadError → String
  | endOfValue => "EOF while parsing a value"
  | endOfText => "EOF while parsing a string"
  | endOfArray => "EOF while parsing a list"
  | endOfObject => "EOF while parsing an object"
  | expectedValue => "expected value"
  | expectedKeyword => "expected ident"
  | invalidNumber => "invalid number"
  | numberOutOfRange => "number out of range"
  | keyNotText => "key must be a string"
  | expectedColon => "expected `:`"
  | expectedCommaOrBrace => "expected `,` or `\x7d`"
  | expectedCommaOrBracket => "expected `,` or `]`"
  | trailingComma => "trailing comma"
  | trailingCharacters => "trailing characters"
  | invalidEscape => "invalid escape"
  | controlCharacter => "control character (\\u0000-\\u001F) found while parsing a string"
  | loneSurrogate => "lone leading surrogate in hex escape"
  | unfinishedSurrogate => "unexpected end of hex escape"
  | invalidType found expected =>
    "invalid type: " ++ found.message ++ ", expected " ++ expected.message
  | integerOutOfRange value expected =>
    "invalid value: " ++ (Found.integer value).message ++ ", expected " ++ expected.message
  | unknownVariant name known =>
    "unknown variant " ++ inBackticks name ++ ", expected one of "
      ++ ", ".intercalate (known.map inBackticks)
  | missingField key => "missing field " ++ inBackticks key
  | duplicateField key => "duplicate field " ++ inBackticks key
  | invalidLength count record size =>
    "invalid length " ++ toString count ++ ", expected " ++ (Expected.record record).message
      ++ " with " ++ toString size ++ " elements"
  | purposes fault => fault.message
  | offsetOutOfRange => "epoch offset out of range for timestamp"
  | rejected error => error.message

end ReadError

theorem bind_eq_ok_iff {ε α β : Type} {x : Except ε α} {f : α → Except ε β} {b : β} :
    x >>= f = .ok b ↔ ∃ a, x = .ok a ∧ f a = .ok b := by
  cases x with
  | error e => simp [bind, Except.bind]
  | ok a => simp [bind, Except.bind]

theorem mapError_eq_ok_iff {ε ε' α : Type} {x : Except ε α} {f : ε → ε'} {a : α} :
    x.mapError f = .ok a ↔ x = .ok a := by
  cases x with
  | error e => constructor <;> intro h <;> cases h
  | ok b => constructor <;> intro h <;> cases h <;> rfl

/-- The one value without a written form is the earliest instant. -/
inductive WriteError where
  | instantOutOfRange
deriving DecidableEq

namespace WriteError

def category : WriteError → Category
  | instantOutOfRange => .data

def message : WriteError → String
  | instantOutOfRange => "timestamp out of range for epoch offset"

end WriteError

end HardwareKeys.Json

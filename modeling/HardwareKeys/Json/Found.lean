import HardwareKeys.Json.Numeral
import HardwareKeys.Json.Text

/-!
# Values of the wrong type

What is said of a value that a reader cannot take. Scalars are read to the end, so that their own errors come first; of an array or an object only the bracket counts.
-/

namespace HardwareKeys.Json

def Numeral.Fault.readError : Numeral.Fault → ReadError
  | ended => .endOfValue
  | malformed => .invalidNumber

/-- A number, with the text after it. -/
def readNumber (s : List Char) : Except ReadError (Number × List Char) := do
  let (numeral, rest) ← (Numeral.scan s).mapError Numeral.Fault.readError
  let number ← numeral.value
  pure (number, rest)

theorem readNumber_length_lt {s rest : List Char} {number : Number}
    (h : readNumber s = .ok (number, rest)) : rest.length < s.length := by
  obtain ⟨⟨numeral, tail⟩, hscan, h⟩ := bind_eq_ok_iff.mp h
  obtain ⟨number, -, h⟩ := bind_eq_ok_iff.mp h
  cases h
  exact Numeral.scan_length_lt (mapError_eq_ok_iff.mp hscan)

/-- The value that a text starts with, as a message shows it. -/
def found : List Char → Except ReadError Found
  | [] => throw .endOfValue
  | 'n' :: s => do
    let _ ← expectLetters ['u', 'l', 'l'] s
    pure .null
  | 't' :: s => do
    let _ ← expectLetters ['r', 'u', 'e'] s
    pure (.boolean true)
  | 'f' :: s => do
    let _ ← expectLetters ['a', 'l', 's', 'e'] s
    pure (.boolean false)
  | '"' :: s => do
    let (chars, _) ← readChars s
    pure (.text (String.ofList chars))
  | '[' :: _ => pure .sequence
  | '\x7b' :: _ => pure .object
  | c :: s =>
    if Numeral.startsNumber c then do
      let (number, _) ← readNumber (c :: s)
      pure number.found
    else throw .expectedValue

/-- The error for a value that is not of the expected type. -/
def wrongType (expected : Expected) (s : List Char) : ReadError :=
  match found s with
  | .error e => e
  | .ok value => .invalidType value expected

end HardwareKeys.Json

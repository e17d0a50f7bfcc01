import HardwareKeys.Json.Codec
import HardwareKeys.Purposes.Text

/-!
# Purposes in JSON

A set of purposes is a JSON text that holds its written form.
-/

namespace HardwareKeys.Purposes

open Json

/-- The set written in the characters of a JSON text. -/
def ofChars (s : List Char) : Except ReadError Purposes :=
  match ofText s with
  | .ok p => .ok p
  | .error fault => .error (.purposes fault)

def codec : Codec Purposes where
  read := (Reader.chars .purposes).mapOk ofChars
  write p := .ok (writeText p.text)

end HardwareKeys.Purposes

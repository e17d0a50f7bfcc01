import HardwareKeys.Text.Hex
import HardwareKeys.Text.Printable

/-!
# Quoted text

How a text is shown inside a message: between double quotes, with short escapes for the common control characters and the code point of every other character that is not printable.
-/

namespace HardwareKeys.Text

def quoteChar (c : Char) : List Char :=
  match c with
  | '"' => ['\\', '"']
  | '\\' => ['\\', '\\']
  | '\n' => ['\\', 'n']
  | '\r' => ['\\', 'r']
  | '\t' => ['\\', 't']
  | '\x00' => ['\\', '0']
  | c => if isPrintable c then [c] else ['\\', 'u', '\x7b'] ++ hexDigits c.toNat ++ ['\x7d']

def quote (s : String) : String :=
  String.ofList (['"'] ++ s.toList.flatMap quoteChar ++ ['"'])

end HardwareKeys.Text

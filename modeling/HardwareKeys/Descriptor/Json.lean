import HardwareKeys.Descriptor
import HardwareKeys.KeyParams.Json

/-!
# Descriptors in JSON

A descriptor is written as its parameters. It is read by reading parameters and converting them: the parameters come first, then the rules of building, and only then is the text after the value looked at.
-/

namespace HardwareKeys.Descriptor

open Json

def ofJson (s : String) : Logged (Except ReadError Descriptor) :=
  match KeyParams.codec.read.run s.toList with
  | .error e => pure (.error e)
  | .ok (p, rest) => do
    match ← convert p with
    | .error e => pure (.error (.rejected e))
    | .ok d =>
      match expectEnd rest with
      | .error e => pure (.error e)
      | .ok () => pure (.ok d)

def toJson (d : Descriptor) : Except WriteError String := d.toParams.toJson

end HardwareKeys.Descriptor

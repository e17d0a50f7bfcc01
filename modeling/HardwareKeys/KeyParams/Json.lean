import HardwareKeys.Instant.Json
import HardwareKeys.KeyParams
import HardwareKeys.Origin.Json
import HardwareKeys.Purposes.Json

/-!
# Key parameters in JSON

The record of key parameters. In an object every optional field may be left out; in an array that ends early only the instants may.
-/

namespace HardwareKeys.KeyParams

open Json

namespace Field

def key : Field → String
  | keyAlias => "alias"
  | keySize => "key_size"
  | insideSecureHardware => "inside_secure_hardware"
  | origin => "origin"
  | validityStart => "key_validity_start"
  | originationEnd => "key_validity_for_origination_end"
  | consumptionEnd => "key_validity_for_consumption_end"
  | purposes => "purposes"
  | encryptionPaddings => "encryption_paddings"
  | signaturePaddings => "signature_paddings"
  | digests => "digests"
  | blockModes => "block_modes"
  | authenticationRequired => "user_authentication_required"
  | authenticationValidity => "user_authentication_validity_duration_seconds"
  | authenticationInSecureHardware =>
    "user_authentication_requirement_enforced_by_secure_hardware"

def codec : (field : Field) → Codec field.Value
  | keyAlias => Codec.text.orNull
  | keySize => .word32
  | insideSecureHardware => .boolean
  | origin => Origin.codec
  | validityStart => Instant.codec.orNull
  | originationEnd => Instant.codec.orNull
  | consumptionEnd => Instant.codec.orNull
  | purposes => Purposes.codec
  | encryptionPaddings => Codec.text.list.orNull
  | signaturePaddings => Codec.text.list.orNull
  | digests => Codec.text.list.orNull
  | blockModes => Codec.text.list.orNull
  | authenticationRequired => .boolean
  | authenticationValidity => .int32
  | authenticationInSecureHardware => .boolean

/-- What an object that leaves the field out says of it. -/
def whenAbsent : (field : Field) → Option field.Value
  | keyAlias => some none
  | validityStart => some none
  | originationEnd => some none
  | consumptionEnd => some none
  | encryptionPaddings => some none
  | signaturePaddings => some none
  | digests => some none
  | blockModes => some none
  | keySize => none
  | insideSecureHardware => none
  | origin => none
  | purposes => none
  | authenticationRequired => none
  | authenticationValidity => none
  | authenticationInSecureHardware => none

/-- What an array that ends before the field says of it. -/
def whenCutOff : (field : Field) → Option field.Value
  | validityStart => some none
  | originationEnd => some none
  | consumptionEnd => some none
  | _ => none

end Field

def record : Record where
  name := "KeyDescriptorParams"
  Field := Field
  Value := Field.Value
  fields := Field.all
  mem_fields := Field.mem_all
  key := Field.key
  codec := Field.codec
  whenAbsent := Field.whenAbsent
  whenCutOff := Field.whenCutOff

def codec : Codec KeyParams :=
  record.toCodec.via (fun full => .ok (ofFields full)) fun p => .ok p.get

def ofJson (s : String) : Except ReadError KeyParams := codec.ofText s

def toJson (p : KeyParams) : Except WriteError String := codec.toText p

end HardwareKeys.KeyParams

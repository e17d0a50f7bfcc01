import HardwareKeys.Instant
import HardwareKeys.Origin
import HardwareKeys.Purposes

/-!
# Key parameters

What a descriptor is built from. An absent instant is no restriction; an absent list of tokens counts as empty once a descriptor is built.
-/

namespace HardwareKeys

/-- The validity of an authentication that holds for one use only. -/
def authenticateEveryUse : Int32 := -1

structure KeyParams where
  keyAlias : Option String := none
  keySize : UInt32 := 0
  insideSecureHardware : Bool := false
  origin : Origin := .unknown
  validityStart : Option Instant := none
  /-- The end of the time in which the key may encrypt or sign. -/
  originationEnd : Option Instant := none
  /-- The end of the time in which the key may decrypt or verify. -/
  consumptionEnd : Option Instant := none
  purposes : Purposes := .empty
  encryptionPaddings : Option (List String) := none
  signaturePaddings : Option (List String) := none
  digests : Option (List String) := none
  blockModes : Option (List String) := none
  authenticationRequired : Bool := false
  /-- How many seconds an authentication holds, or `authenticateEveryUse`. -/
  authenticationValidity : Int32 := authenticateEveryUse
  authenticationInSecureHardware : Bool := false
deriving DecidableEq, Inhabited

namespace KeyParams

/-- The parameters with every token list present. -/
def withLists (p : KeyParams) : KeyParams :=
  { p with
    encryptionPaddings := some (p.encryptionPaddings.getD [])
    signaturePaddings := some (p.signaturePaddings.getD [])
    digests := some (p.digests.getD [])
    blockModes := some (p.blockModes.getD []) }

inductive Field where
  | keyAlias
  | keySize
  | insideSecureHardware
  | origin
  | validityStart
  | originationEnd
  | consumptionEnd
  | purposes
  | encryptionPaddings
  | signaturePaddings
  | digests
  | blockModes
  | authenticationRequired
  | authenticationValidity
  | authenticationInSecureHardware
deriving DecidableEq

namespace Field

def all : List Field :=
  [keyAlias, keySize, insideSecureHardware, origin, validityStart, originationEnd, consumptionEnd,
    purposes, encryptionPaddings, signaturePaddings, digests, blockModes, authenticationRequired,
    authenticationValidity, authenticationInSecureHardware]

theorem mem_all (field : Field) : field ∈ all := by
  cases field <;> decide

def Value : Field → Type
  | keyAlias => Option String
  | keySize => UInt32
  | insideSecureHardware => Bool
  | origin => Origin
  | validityStart => Option Instant
  | originationEnd => Option Instant
  | consumptionEnd => Option Instant
  | purposes => Purposes
  | encryptionPaddings => Option (List String)
  | signaturePaddings => Option (List String)
  | digests => Option (List String)
  | blockModes => Option (List String)
  | authenticationRequired => Bool
  | authenticationValidity => Int32
  | authenticationInSecureHardware => Bool

end Field

def get (p : KeyParams) : (field : Field) → field.Value
  | .keyAlias => p.keyAlias
  | .keySize => p.keySize
  | .insideSecureHardware => p.insideSecureHardware
  | .origin => p.origin
  | .validityStart => p.validityStart
  | .originationEnd => p.originationEnd
  | .consumptionEnd => p.consumptionEnd
  | .purposes => p.purposes
  | .encryptionPaddings => p.encryptionPaddings
  | .signaturePaddings => p.signaturePaddings
  | .digests => p.digests
  | .blockModes => p.blockModes
  | .authenticationRequired => p.authenticationRequired
  | .authenticationValidity => p.authenticationValidity
  | .authenticationInSecureHardware => p.authenticationInSecureHardware

def ofFields (full : (field : Field) → field.Value) : KeyParams where
  keyAlias := full .keyAlias
  keySize := full .keySize
  insideSecureHardware := full .insideSecureHardware
  origin := full .origin
  validityStart := full .validityStart
  originationEnd := full .originationEnd
  consumptionEnd := full .consumptionEnd
  purposes := full .purposes
  encryptionPaddings := full .encryptionPaddings
  signaturePaddings := full .signaturePaddings
  digests := full .digests
  blockModes := full .blockModes
  authenticationRequired := full .authenticationRequired
  authenticationValidity := full .authenticationValidity
  authenticationInSecureHardware := full .authenticationInSecureHardware

@[simp]
theorem ofFields_get (p : KeyParams) : ofFields p.get = p := rfl

theorem get_ofFields (full : (field : Field) → field.Value) : (ofFields full).get = full := by
  funext field
  cases field <;> rfl

end KeyParams

end HardwareKeys

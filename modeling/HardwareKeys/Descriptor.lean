import HardwareKeys.Event
import HardwareKeys.KeyError
import HardwareKeys.KeyParams

/-!
# Key descriptors

The read-only account of a key. `Descriptor.ofParams` needs an alias and nothing else: tokens, purposes and validity times are taken as they come. Each descriptor that is built is reported once.
-/

namespace HardwareKeys

structure Descriptor where
  keyAlias : String
  keySize : UInt32
  insideSecureHardware : Bool
  origin : Origin
  validityStart : Option Instant
  originationEnd : Option Instant
  consumptionEnd : Option Instant
  purposes : Purposes
  encryptionPaddings : List String
  signaturePaddings : List String
  digests : List String
  blockModes : List String
  authenticationRequired : Bool
  authenticationValidity : Int32
  authenticationInSecureHardware : Bool
deriving DecidableEq

namespace Descriptor

def ofParams (p : KeyParams) : Except KeyError Descriptor :=
  match p.keyAlias with
  | none => .error .missingAlias
  | some keyAlias => .ok
    { keyAlias
      keySize := p.keySize
      insideSecureHardware := p.insideSecureHardware
      origin := p.origin
      validityStart := p.validityStart
      originationEnd := p.originationEnd
      consumptionEnd := p.consumptionEnd
      purposes := p.purposes
      encryptionPaddings := p.encryptionPaddings.getD []
      signaturePaddings := p.signaturePaddings.getD []
      digests := p.digests.getD []
      blockModes := p.blockModes.getD []
      authenticationRequired := p.authenticationRequired
      authenticationValidity := p.authenticationValidity
      authenticationInSecureHardware := p.authenticationInSecureHardware }

def toParams (d : Descriptor) : KeyParams where
  keyAlias := some d.keyAlias
  keySize := d.keySize
  insideSecureHardware := d.insideSecureHardware
  origin := d.origin
  validityStart := d.validityStart
  originationEnd := d.originationEnd
  consumptionEnd := d.consumptionEnd
  purposes := d.purposes
  encryptionPaddings := some d.encryptionPaddings
  signaturePaddings := some d.signaturePaddings
  digests := some d.digests
  blockModes := some d.blockModes
  authenticationRequired := d.authenticationRequired
  authenticationValidity := d.authenticationValidity
  authenticationInSecureHardware := d.authenticationInSecureHardware

/-- What a descriptor holds under a field. It has an alias, and none of its token lists is absent. -/
def Shown : KeyParams.Field → Type
  | .keyAlias => String
  | .encryptionPaddings => List String
  | .signaturePaddings => List String
  | .digests => List String
  | .blockModes => List String
  | field => field.Value

/-- The accessor of a field. -/
def get (d : Descriptor) : (field : KeyParams.Field) → Shown field
  | .keyAlias => d.keyAlias
  | .keySize => d.keySize
  | .insideSecureHardware => d.insideSecureHardware
  | .origin => d.origin
  | .validityStart => d.validityStart
  | .originationEnd => d.originationEnd
  | .consumptionEnd => d.consumptionEnd
  | .purposes => d.purposes
  | .encryptionPaddings => d.encryptionPaddings
  | .signaturePaddings => d.signaturePaddings
  | .digests => d.digests
  | .blockModes => d.blockModes
  | .authenticationRequired => d.authenticationRequired
  | .authenticationValidity => d.authenticationValidity
  | .authenticationInSecureHardware => d.authenticationInSecureHardware

def getKeyAlias (d : Descriptor) : String := d.get .keyAlias

/-- The size of the key in bits. -/
def getKeySize (d : Descriptor) : UInt32 := d.get .keySize

def isInsideSecureHardware (d : Descriptor) : Bool := d.get .insideSecureHardware

def getOrigin (d : Descriptor) : Origin := d.get .origin

def getValidityStart (d : Descriptor) : Option Instant := d.get .validityStart

def getOriginationEnd (d : Descriptor) : Option Instant := d.get .originationEnd

def getConsumptionEnd (d : Descriptor) : Option Instant := d.get .consumptionEnd

def getPurposes (d : Descriptor) : Purposes := d.get .purposes

def getEncryptionPaddings (d : Descriptor) : List String := d.get .encryptionPaddings

def getSignaturePaddings (d : Descriptor) : List String := d.get .signaturePaddings

def getDigests (d : Descriptor) : List String := d.get .digests

def getBlockModes (d : Descriptor) : List String := d.get .blockModes

def isAuthenticationRequired (d : Descriptor) : Bool := d.get .authenticationRequired

/-- How many seconds an authentication holds; of use only where one is required. -/
def getAuthenticationValidity (d : Descriptor) : Int32 := d.get .authenticationValidity

def isAuthenticationInSecureHardware (d : Descriptor) : Bool :=
  d.get .authenticationInSecureHardware

/-- The event that reports the descriptor. -/
def builtEvent (d : Descriptor) : Event :=
  .built d.keyAlias d.origin d.purposes d.insideSecureHardware

/-- Builds a descriptor and reports it. A failure reports nothing. -/
def build (p : KeyParams) : Logged (Except KeyError Descriptor) :=
  match ofParams p with
  | .error e => pure (.error e)
  | .ok d => do
    Logged.report d.builtEvent
    pure (.ok d)

/-- The conversion of parameters into a descriptor: it is built from them. -/
def convert (p : KeyParams) : Logged (Except KeyError Descriptor) := build p

@[simp]
theorem ofParams_toParams (d : Descriptor) : ofParams d.toParams = .ok d := rfl

@[simp]
theorem value_build (p : KeyParams) : (build p).value = ofParams p := by
  unfold build
  split <;> simp [*]

end Descriptor

end HardwareKeys

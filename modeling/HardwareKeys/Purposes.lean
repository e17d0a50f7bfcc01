/-!
# Purposes

What a key may be used for, as a set of 32 bits. Seven bits have a name; the others are kept by every operation except `complement` and `named`, which drop them.
-/

namespace HardwareKeys

inductive Purpose where
  | encrypt
  | decrypt
  | sign
  | verify
  | wrapKey
  | agreeKey
  | attestKey
deriving DecidableEq

namespace Purpose

/-- The named purposes in the order of their declaration. -/
def all : List Purpose := [encrypt, decrypt, sign, verify, wrapKey, agreeKey, attestKey]

theorem mem_all (purpose : Purpose) : purpose ∈ all := by
  cases purpose <;> decide

/-- The bit of the purpose. Bit 16, between the named ones, has no name. -/
def mask : Purpose → UInt32
  | encrypt => 1
  | decrypt => 2
  | sign => 4
  | verify => 8
  | wrapKey => 32
  | agreeKey => 64
  | attestKey => 128

def name : Purpose → String
  | encrypt => "ENCRYPT"
  | decrypt => "DECRYPT"
  | sign => "SIGN"
  | verify => "VERIFY"
  | wrapKey => "WRAP_KEY"
  | agreeKey => "AGREE_KEY"
  | attestKey => "ATTEST_KEY"

/-- The purpose of exactly this name. -/
def ofName? (name : List Char) : Option Purpose :=
  all.find? fun purpose => purpose.name.toList = name

end Purpose

structure Purposes where
  bits : UInt32
deriving DecidableEq

namespace Purposes

def empty : Purposes := ⟨0⟩

/-- Every bit that has a name. -/
def all : Purposes := ⟨Purpose.all.foldl (fun bits purpose => bits ||| purpose.mask) 0⟩

def isEmpty (p : Purposes) : Bool := p.bits == 0

def union (p q : Purposes) : Purposes := ⟨p.bits ||| q.bits⟩

def inter (p q : Purposes) : Purposes := ⟨p.bits &&& q.bits⟩

def diff (p q : Purposes) : Purposes := ⟨p.bits &&& ~~~q.bits⟩

def symmDiff (p q : Purposes) : Purposes := ⟨p.bits ^^^ q.bits⟩

/-- The bits of `p` that have a name. -/
def named (p : Purposes) : Purposes := p.inter all

/-- The bits of `p` without a name. -/
def unnamed (p : Purposes) : Purposes := p.diff all

/-- The named bits that `p` lacks. -/
def complement (p : Purposes) : Purposes := named ⟨~~~p.bits⟩

/-- Every bit of `q` is set in `p`. -/
def contains (p q : Purposes) : Bool := p.inter q == q

def intersects (p q : Purposes) : Bool := !(p.inter q).isEmpty

def single (purpose : Purpose) : Purposes := ⟨purpose.mask⟩

/-- Whether a key with these purposes may be used for `purpose`. -/
def allows (p : Purposes) (purpose : Purpose) : Bool := p.contains (single purpose)

def canEncrypt (p : Purposes) : Bool := p.allows .encrypt

def canDecrypt (p : Purposes) : Bool := p.allows .decrypt

def canSign (p : Purposes) : Bool := p.allows .sign

def canVerify (p : Purposes) : Bool := p.allows .verify

/-- Whether the key may wrap other keys for secure import. -/
def canWrapKey (p : Purposes) : Bool := p.allows .wrapKey

def canAgreeKey (p : Purposes) : Bool := p.allows .agreeKey

/-- Whether the key may sign attestations for other keys. -/
def canAttestKey (p : Purposes) : Bool := p.allows .attestKey

/-- The predicates in the order of their purposes. -/
def predicates : List (Purposes → Bool) :=
  [canEncrypt, canDecrypt, canSign, canVerify, canWrapKey, canAgreeKey, canAttestKey]

theorem predicates_eq_map : predicates = Purpose.all.map fun purpose p => p.allows purpose := rfl

def isAll (p : Purposes) : Bool := p.contains all

/-- The set with these bits, if each of them has a name. -/
def ofNamedBits? (bits : UInt32) : Option Purposes :=
  if (unnamed ⟨bits⟩).isEmpty then some ⟨bits⟩ else none

/-- The named purposes in the set, in declaration order. -/
def toList (p : Purposes) : List Purpose := Purpose.all.filter p.allows

/-- A step that changes a set of purposes. -/
inductive Change where
  | insert (operand : Purposes)
  | remove (operand : Purposes)
  | toggle (operand : Purposes)
  | retain (operand : Purposes)
  | complement
deriving DecidableEq

def apply (p : Purposes) : Change → Purposes
  | .insert operand => p.union operand
  | .remove operand => p.diff operand
  | .toggle operand => p.symmDiff operand
  | .retain operand => p.inter operand
  | .complement => p.complement

def applyAll (p : Purposes) (changes : List Change) : Purposes := changes.foldl apply p

end Purposes

end HardwareKeys

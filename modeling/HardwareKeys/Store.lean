import Std.Data.ExtTreeMap
import HardwareKeys.Descriptor

/-!
# The key store

Parameters kept in memory under their alias. A look-up builds a fresh descriptor from the parameters last inserted. `Store.run` carries out a list of calls; a call that fails leaves the store as it was.
-/

namespace HardwareKeys

structure Store where
  name : String
  entries : Std.ExtTreeMap String KeyParams

namespace Store

def defaultName : String := "mock-keystore"

def create (name : String) : Logged Store := do
  Logged.report (.storeCreated name)
  pure ⟨name, ∅⟩

/-- Keeps the parameters under their alias in place of any earlier ones. -/
def insert (s : Store) (p : KeyParams) : Logged (Except KeyError Store) :=
  match p.keyAlias with
  | none => pure (.error .missingAlias)
  | some keyAlias => do
    Logged.report (.registering keyAlias s.name)
    pure (.ok { s with entries := s.entries.insert keyAlias p })

def remove (s : Store) (keyAlias : String) : Except KeyError Store :=
  if s.entries.contains keyAlias then .ok { s with entries := s.entries.erase keyAlias }
  else .error (.keyNotFound keyAlias)

def keyInfo (s : Store) (keyAlias : String) : Logged (Except KeyError Descriptor) := do
  Logged.report (.resolving keyAlias s.name)
  match s.entries[keyAlias]? with
  | none => pure (.error (.keyNotFound keyAlias))
  | some p => Descriptor.build p

/-- Whether a look-up of the alias succeeds. It is reported like any look-up. -/
def contains (s : Store) (keyAlias : String) : Logged Bool := do
  let info ← s.keyInfo keyAlias
  pure info.isOk

/-- The aliases in increasing order of their code points. -/
def aliases (s : Store) : List String := s.entries.keys

def size (s : Store) : Nat := s.entries.size

def isEmpty (s : Store) : Bool := s.entries.isEmpty

inductive Call where
  | insert (params : KeyParams)
  | remove (keyAlias : String)
  | keyInfo (keyAlias : String)
  | contains (keyAlias : String)
  | aliases
  | size
  | isEmpty
  | name
deriving DecidableEq

inductive Reply where
  | done
  | failed (error : KeyError)
  | descriptor (d : Descriptor)
  | flag (value : Bool)
  | aliases (list : List String)
  | size (count : Nat)
  | name (text : String)
deriving DecidableEq

/-- The store after an update, and what the update answers. -/
def settle (s : Store) : Except KeyError Store → Store × Reply
  | .ok next => (next, .done)
  | .error e => (s, .failed e)

def Reply.ofLookup : Except KeyError Descriptor → Reply
  | .ok d => .descriptor d
  | .error e => .failed e

def step (s : Store) : Call → Logged (Store × Reply)
  | .insert p => s.settle <$> s.insert p
  | .remove keyAlias => pure (s.settle (s.remove keyAlias))
  | .keyInfo keyAlias => (fun info => (s, .ofLookup info)) <$> s.keyInfo keyAlias
  | .contains keyAlias => (fun found => (s, .flag found)) <$> s.contains keyAlias
  | .aliases => pure (s, .aliases s.aliases)
  | .size => pure (s, .size s.size)
  | .isEmpty => pure (s, .flag s.isEmpty)
  | .name => pure (s, .name s.name)

/-- Carries out the calls in order and collects their replies. -/
def run (s : Store) : List Call → Logged (Store × List Reply)
  | [] => pure (s, [])
  | call :: rest => do
    let (next, reply) ← s.step call
    let (last, replies) ← next.run rest
    pure (last, reply :: replies)

end Store

end HardwareKeys

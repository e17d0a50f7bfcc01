import HardwareKeys.Origin
import HardwareKeys.Purposes.Text

/-!
# The log

What the key store reports while it works. A computation of type `Logged α` has a value and the events that were reported on the way, in order.
-/

namespace HardwareKeys

inductive Event where
  | storeCreated (store : String)
  | registering (keyAlias store : String)
  | resolving (keyAlias store : String)
  | built (keyAlias : String) (origin : Origin) (purposes : Purposes) (inSecureHardware : Bool)
deriving DecidableEq

namespace Event

inductive Level where
  | debug
  | info
deriving DecidableEq

def Level.name : Level → String
  | debug => "DEBUG"
  | info => "INFO"

def level : Event → Level
  | storeCreated _ => .info
  | registering .. | resolving .. | built .. => .debug

def builtTail (origin : Origin) (purposes : Purposes) (inSecureHardware : Bool) : String :=
  "': origin=" ++ origin.label ++ ", purposes=" ++ String.ofList purposes.messageText
    ++ ", secure_hw=" ++ if inSecureHardware then "true" else "false"

/-- The text of an event. Aliases and store names stand in it as they are. -/
def message : Event → String
  | storeCreated store => "Initializing mock key store: " ++ store
  | registering keyAlias store => "Registering key metadata for '" ++ keyAlias ++ "' in " ++ store
  | resolving keyAlias store => "Resolving key info for '" ++ keyAlias ++ "' in " ++ store
  | built keyAlias origin purposes inSecureHardware =>
    "Built key descriptor for '" ++ keyAlias ++ builtTail origin purposes inSecureHardware

end Event

structure Logged (α : Type) where
  events : List Event
  value : α

namespace Logged

variable {α β : Type}

def bind (x : Logged α) (f : α → Logged β) : Logged β :=
  let y := f x.value
  ⟨x.events ++ y.events, y.value⟩

instance : Monad Logged where
  pure a := ⟨[], a⟩
  bind := bind

def report (event : Event) : Logged Unit := ⟨[event], ()⟩

@[simp]
theorem events_pure (a : α) : (pure a : Logged α).events = [] := rfl

@[simp]
theorem value_pure (a : α) : (pure a : Logged α).value = a := rfl

@[simp]
theorem events_bind (x : Logged α) (f : α → Logged β) :
    (x >>= f).events = x.events ++ (f x.value).events := rfl

@[simp]
theorem value_bind (x : Logged α) (f : α → Logged β) : (x >>= f).value = (f x.value).value := rfl

@[simp]
theorem events_map (f : α → β) (x : Logged α) : (f <$> x).events = x.events :=
  List.append_nil x.events

@[simp]
theorem value_map (f : α → β) (x : Logged α) : (f <$> x).value = f x.value := rfl

@[simp]
theorem events_report (event : Event) : (report event).events = [event] := rfl

end Logged

end HardwareKeys

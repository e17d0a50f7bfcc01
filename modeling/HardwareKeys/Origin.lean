/-!
# Origin

How a key came into the key store.
-/

namespace HardwareKeys

inductive Origin where
  | generated
  | imported
  /-- The store that made the key did not record how. -/
  | unknown
  /-- Imported under a wrapping key, so that the plain key never left secure hardware. -/
  | securelyImported
deriving DecidableEq

namespace Origin

def all : List Origin := [generated, imported, unknown, securelyImported]

theorem mem_all (origin : Origin) : origin ∈ all := by
  cases origin <;> decide

/-- The code by which a key store reports the origin. -/
def code : Origin → UInt32
  | generated => 1
  | imported => 2
  | unknown => 4
  | securelyImported => 8

def ofCode? (code : UInt32) : Option Origin := all.find? fun origin => origin.code = code

/-- The word used in messages. -/
def label : Origin → String
  | generated => "generated"
  | imported => "imported"
  | unknown => "unknown"
  | securelyImported => "securely-imported"

def identifier : Origin → String
  | generated => "Generated"
  | imported => "Imported"
  | unknown => "Unknown"
  | securelyImported => "SecurelyImported"

/-- The name in the JSON format. -/
def name : Origin → String
  | generated => "GENERATED"
  | imported => "IMPORTED"
  | unknown => "UNKNOWN"
  | securelyImported => "SECURELY_IMPORTED"

def names : List String := all.map name

def ofName? (name : String) : Option Origin := all.find? fun origin => origin.name = name

theorem ofCode?_code (origin : Origin) : ofCode? origin.code = some origin := by
  cases origin <;> decide

theorem ofName?_name (origin : Origin) : ofName? origin.name = some origin := by
  cases origin <;> decide

end Origin

end HardwareKeys

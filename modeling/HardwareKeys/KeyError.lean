/-!
# Failures of the key store

Why a descriptor cannot be built or an entry cannot be found.
-/

namespace HardwareKeys

inductive KeyError where
  | missingAlias
  | keyNotFound (keyAlias : String)
deriving DecidableEq

def KeyError.message : KeyError → String
  | missingAlias => "Invalid argument: key store alias must be provided"
  | keyNotFound keyAlias => "Key not found: " ++ keyAlias

end HardwareKeys

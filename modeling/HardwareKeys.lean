import HardwareKeys.Vocabulary
import HardwareKeys.Version
import HardwareKeys.Store
import HardwareKeys.Descriptor.Json
import HardwareKeys.Proofs.Store.Observers
import HardwareKeys.Proofs.Store.Confinement
import HardwareKeys.Proofs.Store.Independence
import HardwareKeys.Proofs.Store.Account
import HardwareKeys.Proofs.Descriptor.Normal
import HardwareKeys.Proofs.Descriptor.RoundTrip
import HardwareKeys.Proofs.Descriptor.Routes
import HardwareKeys.Proofs.Descriptor.BuiltMessage
import HardwareKeys.Proofs.KeyParams.Truncation
import HardwareKeys.Proofs.KeyParams.Integers
import HardwareKeys.Proofs.Instant.Normalized
import HardwareKeys.Proofs.Purposes.Grammar
import HardwareKeys.Proofs.Purposes.Normal
import HardwareKeys.Proofs.Purposes.Changes
import HardwareKeys.Proofs.Json.Integers
import HardwareKeys.Proofs.Json.Places
import HardwareKeys.Proofs.KeyParams.Integers

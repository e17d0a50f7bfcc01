import HardwareKeys.Instant.EpochOffset
import HardwareKeys.Json.Record

/-!
# Instants in JSON

An instant is written as the record of its epoch offset.
-/

namespace HardwareKeys

open Json

namespace EpochOffset

inductive Field where
  | seconds
  | nanos
deriving DecidableEq

def Field.Value : Field → Type
  | seconds => Int64
  | nanos => UInt32

def Field.key : Field → String
  | seconds => "secs"
  | nanos => "nanos"

def Field.codec : (field : Field) → Codec field.Value
  | seconds => .int64
  | nanos => .word32

def record : Record where
  name := "EpochTime"
  Field := Field
  Value := Field.Value
  fields := [.seconds, .nanos]
  mem_fields field := by cases field <;> decide
  key := Field.key
  codec := Field.codec
  whenAbsent _ := none
  whenCutOff _ := none

def get (offset : EpochOffset) : (field : Field) → field.Value
  | .seconds => offset.seconds
  | .nanos => offset.nanos

def ofFields (full : (field : Field) → field.Value) : EpochOffset :=
  ⟨full .seconds, full .nanos⟩

def codec : Codec EpochOffset :=
  record.toCodec.via (fun full => .ok (ofFields full)) fun offset => .ok offset.get

end EpochOffset

namespace Instant

def ofEpochOffset (offset : EpochOffset) : Except ReadError Instant :=
  match offset.toInstant? with
  | some t => .ok t
  | none => .error .offsetOutOfRange

def epochOffset (t : Instant) : Except WriteError EpochOffset :=
  match t.toEpochOffset? with
  | some offset => .ok offset
  | none => .error .instantOutOfRange

def codec : Codec Instant := EpochOffset.codec.via ofEpochOffset epochOffset

end Instant

end HardwareKeys

import HardwareKeys.Json.Codec
import HardwareKeys.Origin

/-!
# Origins in JSON

An origin is written as its name. An object with that name as its only key, and `null` under it, is read as well.
-/

namespace HardwareKeys.Origin

open Json

/-- The origin of a name, which must be one of the four. -/
def ofChars (name : List Char) : Except ReadError Origin :=
  match ofName? (String.ofList name) with
  | some origin => pure origin
  | none => throw (.unknownVariant (String.ofList name) names)

/-- A name after its opening quote. -/
def readName (s : List Char) : Except ReadError (Origin × List Char) := do
  let (name, rest) ← readChars s
  let origin ← ofChars name
  pure (origin, rest)

/-- The closing brace of the object form. -/
def closeVariant (s : List Char) : Except ReadError (List Char) :=
  match skipBlanks s with
  | [] => throw .endOfObject
  | '\x7d' :: rest => pure rest
  | _ => throw .expectedValue

/-- The name that is the key of the object form. An object without a key has no name to read. -/
def readKey (s : List Char) : Except ReadError (Origin × List Char) :=
  match skipBlanks s with
  | [] => throw .endOfObject
  | '\x7d' :: _ => throw .expectedValue
  | '"' :: rest => readName rest
  | _ => throw .keyNotText

/-- The object form after its opening brace. A name that is no origin is noticed before what follows it. -/
def readVariant (s : List Char) : Except ReadError (Origin × List Char) := do
  let (origin, rest) ← readKey s
  let rest ← expectColon rest
  let ((), rest) ← Reader.unit.run rest
  let rest ← closeVariant rest
  pure (origin, rest)

theorem readName_length_lt {s rest : List Char} {origin : Origin}
    (h : readName s = .ok (origin, rest)) : rest.length < s.length := by
  obtain ⟨⟨name, tail⟩, hchars, h⟩ := bind_eq_ok_iff.mp h
  obtain ⟨origin, -, h⟩ := bind_eq_ok_iff.mp h
  cases h
  exact readChars_length_lt hchars

theorem readKey_length_lt {s rest : List Char} {origin : Origin}
    (h : readKey s = .ok (origin, rest)) : rest.length < s.length := by
  unfold readKey at h
  split at h
  · cases h
  · cases h
  · next hs => exact Nat.lt_trans (readName_length_lt h) (length_lt_of_skipBlanks hs)
  · cases h

theorem closeVariant_length_lt {s rest : List Char} (h : closeVariant s = .ok rest) :
    rest.length < s.length := by
  unfold closeVariant at h
  split at h
  · cases h
  · next hs =>
    cases h
    exact length_lt_of_skipBlanks hs
  · cases h

theorem readVariant_length_lt {s rest : List Char} {origin : Origin}
    (h : readVariant s = .ok (origin, rest)) : rest.length < s.length := by
  obtain ⟨⟨origin, afterKey⟩, hkey, h⟩ := bind_eq_ok_iff.mp h
  obtain ⟨afterColon, hcolon, h⟩ := bind_eq_ok_iff.mp h
  obtain ⟨⟨⟨⟩, afterUnit⟩, hunit, h⟩ := bind_eq_ok_iff.mp h
  obtain ⟨last, hclose, h⟩ := bind_eq_ok_iff.mp h
  cases h
  have := readKey_length_lt hkey
  have := expectColon_length_lt hcolon
  have := Reader.shrinks _ hunit
  have := closeVariant_length_lt hclose
  omega

def reader : Reader Origin where
  run s :=
    match skipBlanks s with
    | [] => throw .endOfValue
    | '"' :: rest => readName rest
    | '\x7b' :: rest => readVariant rest
    | _ => throw .expectedValue
  shrinks h := by
    split at h
    · cases h
    · next hs => exact Nat.lt_trans (readName_length_lt h) (length_lt_of_skipBlanks hs)
    · next hs => exact Nat.lt_trans (readVariant_length_lt h) (length_lt_of_skipBlanks hs)
    · cases h

def codec : Codec Origin := ⟨reader, fun origin => .ok (writeText origin.name.toList)⟩

end HardwareKeys.Origin

import HardwareKeys.Json.Codec
import HardwareKeys.Json.Skip

/-!
# Records

A record is given by its fields in their order, each with a key and a codec. It is written as an object. It is read from an object with its entries in any order, where unknown keys are skipped, or from an array of its values in field order.
-/

namespace HardwareKeys.Json

structure Record where
  name : String
  Field : Type
  [decEq : DecidableEq Field]
  Value : Field → Type
  fields : List Field
  mem_fields : ∀ field, field ∈ fields
  key : Field → String
  codec : (field : Field) → Codec (Value field)
  /-- The value of a field that an object does not mention, if it may be left out. -/
  whenAbsent : (field : Field) → Option (Value field)
  /-- The value of a field that an array ends before, if it may be left out. -/
  whenCutOff : (field : Field) → Option (Value field)

namespace Record

attribute [instance] Record.decEq

variable (R : Record)

/-- A value for every field. -/
abbrev Full : Type := (field : R.Field) → R.Value field

/-- The values of the fields read so far. -/
abbrev Draft : Type := (field : R.Field) → Option (R.Value field)

variable {R}

def Draft.empty : R.Draft := fun _ => none

def Draft.set (draft : R.Draft) (field : R.Field) (value : R.Value field) : R.Draft := fun other =>
  if h : other = field then some (h ▸ value) else draft other

/-- The draft with defaults for what it lacks, or the first field that has none. -/
def Draft.complete (draft default : R.Draft) : Except R.Field R.Full :=
  match h : R.fields.find? fun field => ((draft field).or (default field)).isNone with
  | some field => .error field
  | none => .ok fun field => ((draft field).or (default field)).get
      (Option.isSome_iff_ne_none.mpr fun hnone =>
        List.find?_eq_none.mp h field (R.mem_fields field) (Option.isNone_iff_eq_none.mpr hnone))

def ofKey? (R : Record) (key : List Char) : Option R.Field :=
  R.fields.find? fun field => (R.key field).toList = key

/-! ### Objects -/

/-- An entry of an object after the opening quote of its key, added to the draft. A key that has been read before is refused before its value is looked at. -/
def readEntry (draft : R.Draft) (s : List Char) : Except ReadError (R.Draft × List Char) := do
  let (key, rest) ← readChars s
  match R.ofKey? key with
  | none =>
    let rest ← expectColon rest
    let rest ← skipValue rest
    pure (draft, rest)
  | some field =>
    if (draft field).isSome then throw (.duplicateField (R.key field))
    else
      let rest ← expectColon rest
      let (value, rest) ← (R.codec field).read.run rest
      pure (draft.set field value, rest)

theorem readEntry_length_lt {draft next : R.Draft} {s rest : List Char}
    (h : readEntry draft s = .ok (next, rest)) : rest.length < s.length := by
  obtain ⟨⟨key, afterKey⟩, hkey, h⟩ := bind_eq_ok_iff.mp h
  have := readChars_length_lt hkey
  dsimp only at h
  split at h
  · obtain ⟨afterColon, hcolon, h⟩ := bind_eq_ok_iff.mp h
    obtain ⟨afterValue, hvalue, h⟩ := bind_eq_ok_iff.mp h
    cases h
    have := expectColon_length_lt hcolon
    have := skipFrom_length_lt hvalue
    omega
  · split at h
    · cases h
    · obtain ⟨afterColon, hcolon, h⟩ := bind_eq_ok_iff.mp h
      obtain ⟨⟨value, afterValue⟩, hvalue, h⟩ := bind_eq_ok_iff.mp h
      dsimp only at h
      cases h
      have := expectColon_length_lt hcolon
      have := Reader.shrinks _ hvalue
      omega

/-- The entries of an object after its opening brace, added to the draft. -/
def readEntries (draft : R.Draft) (first : Bool) (s : List Char) :
    Except ReadError (R.Draft × List Char) :=
  match _hnext : nextEntry first s with
  | .error e => .error e
  | .ok (false, rest) => .ok (draft, rest)
  | .ok (true, rest) =>
    match _hentry : readEntry draft rest with
    | .error e => .error e
    | .ok (draft, rest) => readEntries draft false rest
termination_by s.length
decreasing_by
  have := nextEntry_length_lt _hnext
  have := readEntry_length_lt _hentry
  omega

/-- An object after its opening brace. Missing fields are noticed once it is closed. -/
def readObject (R : Record) (s : List Char) : Except ReadError (R.Full × List Char) := do
  let (draft, rest) ← readEntries (R := R) .empty true s
  let full ← (draft.complete R.whenAbsent).mapError fun field => .missingField (R.key field)
  pure (full, rest)

/-! ### Arrays -/

/-- The closing bracket, where all fields have been read. -/
def closeArray (s : List Char) : Except ReadError (List Char) :=
  match skipBlanks s with
  | [] => throw .endOfArray
  | ']' :: rest => pure rest
  | ',' :: rest =>
    match skipBlanks rest with
    | ']' :: _ => throw .trailingComma
    | _ => throw .trailingCharacters
  | _ => throw .trailingCharacters

/-- The values of the fields, in order, up to the closing bracket of an array. -/
def readPositions (draft : R.Draft) (first : Bool) :
    List R.Field → List Char → Except ReadError (R.Draft × List Char)
  | [], s => do
    let rest ← closeArray s
    pure (draft, rest)
  | field :: fields, s => do
    match ← nextItem first s with
    | (false, rest) => pure (draft, rest)
    | (true, rest) =>
      let (value, rest) ← (R.codec field).read.run rest
      readPositions (draft.set field value) false fields rest

/-- An array after its opening bracket. -/
def readArray (R : Record) (s : List Char) : Except ReadError (R.Full × List Char) := do
  let (draft, rest) ← readPositions (R := R) .empty true R.fields s
  let full ← (draft.complete R.whenCutOff).mapError fun field =>
    .invalidLength (R.fields.idxOf field) R.name R.fields.length
  pure (full, rest)

theorem readEntries_length_lt {draft last : R.Draft} {first : Bool} {s rest : List Char}
    (h : readEntries draft first s = .ok (last, rest)) : rest.length < s.length := by
  fun_induction readEntries draft first s with
  | case1 => cases h
  | case2 _ _ _ _ hnext =>
    cases h
    exact nextEntry_length_lt hnext
  | case3 => cases h
  | case4 _ _ _ _ hnext _ _ hentry ih =>
    have := nextEntry_length_lt hnext
    have := readEntry_length_lt hentry
    have := ih h
    omega

theorem readObject_length_lt {full : R.Full} {s rest : List Char}
    (h : R.readObject s = .ok (full, rest)) : rest.length < s.length := by
  obtain ⟨⟨draft, tail⟩, hentries, h⟩ := bind_eq_ok_iff.mp h
  obtain ⟨full, -, h⟩ := bind_eq_ok_iff.mp h
  cases h
  exact readEntries_length_lt hentries

theorem closeArray_length_le {s rest : List Char} (h : closeArray s = .ok rest) :
    rest.length ≤ s.length := by
  unfold closeArray at h
  split at h
  · cases h
  · next hs =>
    cases h
    exact Nat.le_of_lt (length_lt_of_skipBlanks hs)
  · split at h <;> cases h
  · cases h

theorem readPositions_length_le {draft last : R.Draft} {first : Bool} {fields : List R.Field}
    {s rest : List Char} (h : readPositions draft first fields s = .ok (last, rest)) :
    rest.length ≤ s.length := by
  induction fields generalizing draft first s with
  | nil =>
    obtain ⟨tail, hclose, h⟩ := bind_eq_ok_iff.mp h
    cases h
    exact closeArray_length_le hclose
  | cons field fields ih =>
    obtain ⟨⟨more, tail⟩, hnext, h⟩ := bind_eq_ok_iff.mp h
    have := nextItem_length_le hnext
    cases more with
    | false =>
      cases h
      assumption
    | true =>
      obtain ⟨⟨value, afterValue⟩, hvalue, h⟩ := bind_eq_ok_iff.mp h
      have := Reader.shrinks _ hvalue
      have := ih h
      omega

theorem readArray_length_le {full : R.Full} {s rest : List Char}
    (h : R.readArray s = .ok (full, rest)) : rest.length ≤ s.length := by
  obtain ⟨⟨draft, tail⟩, hpositions, h⟩ := bind_eq_ok_iff.mp h
  obtain ⟨full, -, h⟩ := bind_eq_ok_iff.mp h
  cases h
  exact readPositions_length_le hpositions

def reader (R : Record) : Reader R.Full where
  run s :=
    match skipBlanks s with
    | '\x7b' :: rest => R.readObject rest
    | '[' :: rest => R.readArray rest
    | s => throw (wrongType (.record R.name) s)
  shrinks h := by
    split at h
    · next hs => exact Nat.lt_trans (readObject_length_lt h) (length_lt_of_skipBlanks hs)
    · next hs => exact Nat.lt_of_le_of_lt (readArray_length_le h) (length_lt_of_skipBlanks hs)
    · cases h

/-- An entry of the written object. -/
def writeEntry (full : R.Full) (field : R.Field) : Except WriteError (List Char) := do
  let value ← (R.codec field).write (full field)
  pure (writeText (R.key field).toList ++ ':' :: value)

def write (full : R.Full) : Except WriteError (List Char) := do
  let entries ← R.fields.mapM (writeEntry full)
  pure ('\x7b' :: [','].intercalate entries ++ ['\x7d'])

def toCodec (R : Record) : Codec R.Full := ⟨R.reader, write⟩

end Record

end HardwareKeys.Json

import HardwareKeys.Proofs.Descriptor.Json
import HardwareKeys.Proofs.Json.Integers
import HardwareKeys.Proofs.Json.Places
import HardwareKeys.Proofs.KeyParams.Positions
import HardwareKeys.Proofs.KeyParams.RoundTrip

/-!
# Integers in a document

Parameters hold four kinds of integers: the key size, the validity of an authentication, and the seconds and nanoseconds of an instant. In a document that is otherwise in order, a number literal in the place of one of them is taken exactly if it is an integer in the range of the field. The parameters then hold its value, and for the rest are what they were.
-/

namespace HardwareKeys

open Json

namespace EpochOffset

theorem get_ofFields (full : (field : Field) → field.Value) : (ofFields full).get = full := by
  funext field
  cases field <;> rfl

/-- The offset with another value of one field. -/
def set (offset : EpochOffset) (field : Field) (value : field.Value) : EpochOffset :=
  ofFields (Function.update offset.get field value)

end EpochOffset

section Instants

variable {part : EpochOffset.Field} (place : EpochOffset.record.Place part)

theorem Instant.readAll_fill {value : List Char} (hvalue : IsValue value) :
    Instant.codec.orNull.readAll (place.fill value) =
      some <$> ((EpochOffset.ofFields <$> place.result value) >>= Instant.ofEpochOffset) := by
  have hoffset : EpochOffset.codec.read.Settles (place.fill value)
      (EpochOffset.ofFields <$> place.result value) :=
    place.settles_fill (R := EpochOffset.record) EpochOffset.decisive_field
      EpochOffset.key_injective nofun hvalue
  have hread : Instant.codec.orNull.readAll (Item.text ⟨.none, place.fill value, .none⟩) = _ :=
    Instant.readAll_of_settles hoffset (place.exists_fill_eq_cons value)
  rwa [Item.text, Blanks.none, List.nil_append, List.append_nil] at hread

theorem Instant.readAll_fill_eq_ok_iff {value : List Char} (hvalue : IsValue value)
    {t? : Option Instant} : Instant.codec.orNull.readAll (place.fill value) = .ok t? ↔
      ∃ t full, place.result value = .ok full ∧ t.parts = EpochOffset.ofFields full ∧
        some t = t? := by
  rw [Instant.readAll_fill place hvalue, map_eq_ok_iff]
  constructor
  · rintro ⟨t, ht, rfl⟩
    obtain ⟨offset, hoffset, ht⟩ := bind_eq_ok_iff.mp ht
    obtain ⟨full, hfull, rfl⟩ := map_eq_ok_iff.mp hoffset
    exact ⟨t, full, hfull, ofEpochOffset_eq_ok_iff.mp ht, rfl⟩
  · rintro ⟨t, full, hfull, ht, rfl⟩
    refine ⟨t, bind_eq_ok_iff.mpr ⟨_, map_eq_ok_iff.mpr ⟨full, hfull, rfl⟩, ?_⟩, rfl⟩
    exact ofEpochOffset_eq_ok_iff.mpr ht

/-- Once a value of one part has made an instant, another one is read for itself. -/
theorem Instant.exists_of_readAll_fill {value other : List Char} (hvalue : IsValue value)
    (hother : IsValue other) {base? : Option Instant}
    (hbase : Instant.codec.orNull.readAll (place.fill value) = .ok base?) :
    ∃ base, base? = some base ∧ ∀ t?,
      Instant.codec.orNull.readAll (place.fill other) = .ok t? ↔ ∃ x, part.codec.readAll other =
        .ok x ∧ ∃ t : Instant, t.parts = base.parts.set part x ∧ some t = t? := by
  obtain ⟨base, full, hfull, hparts, rfl⟩ := (Instant.readAll_fill_eq_ok_iff place hvalue).mp hbase
  have hget : base.parts.get = full := by
    rw [hparts]
    exact EpochOffset.get_ofFields full
  have hset : ∀ x, base.parts.set part x = EpochOffset.ofFields (Function.update full part x) := by
    intro x
    rw [EpochOffset.set, hget]
  refine ⟨base, rfl, fun t? => ?_⟩
  rw [Instant.readAll_fill_eq_ok_iff place hother]
  constructor
  · rintro ⟨t, full', hfull', ht, rfl⟩
    obtain ⟨x, hx, rfl⟩ :=
      (Record.Place.result_eq_ok_iff EpochOffset.nodup_fields hfull).mp hfull'
    exact ⟨x, hx, t, ht.trans (hset x).symm, rfl⟩
  · rintro ⟨x, hx, t, ht, rfl⟩
    refine ⟨t, _, ?_, ht.trans (hset x), rfl⟩
    exact (Record.Place.result_eq_ok_iff EpochOffset.nodup_fields hfull).mpr ⟨x, hx, rfl⟩

end Instants

namespace KeyParams

/-- The parameters with another value of one field. -/
def set (p : KeyParams) (field : Field) (value : field.Value) : KeyParams :=
  ofFields (Function.update p.get field value)

section Fill

variable {before after : Blanks} {value other : List Char} {base p : KeyParams}

theorem ofJson_fill {field : Field} (place : record.Place field) (hvalue : IsValue value) :
    ofJson (String.ofList (Item.text ⟨before, place.fill value, after⟩)) =
      ofFields <$> place.result value := by
  have hsettles : codec.read.Settles (place.fill value) (ofFields <$> place.result value) :=
    place.settles_fill (R := record) decisive_field key_injective nofun hvalue
  rw [ofJson_ofList]
  refine Reader.Settles.readAll_item stable_codec ?_
  exact hsettles

/-- Once a value in the place has made parameters, another one is read for itself. -/
theorem ofJson_fill_eq_ok_iff {field : Field} (place : record.Place field)
    (hvalue : IsValue value) (hother : IsValue other)
    (hbase : ofJson (String.ofList (Item.text ⟨before, place.fill value, after⟩)) = .ok base) :
    ofJson (String.ofList (Item.text ⟨before, place.fill other, after⟩)) = .ok p ↔
      ∃ x, field.codec.readAll other = .ok x ∧ base.set field x = p := by
  rw [ofJson_fill place hvalue] at hbase
  obtain ⟨full, hfull, rfl⟩ := map_eq_ok_iff.mp hbase
  have hset : ∀ x, (ofFields full).set field x = ofFields (Function.update full field x) := by
    intro x
    rw [set, get_ofFields]
  rw [ofJson_fill place hother]
  constructor
  · intro h
    obtain ⟨full', hfull', rfl⟩ := map_eq_ok_iff.mp h
    obtain ⟨x, hx, rfl⟩ := (Record.Place.result_eq_ok_iff nodup_fields hfull).mp hfull'
    exact ⟨x, hx, hset x⟩
  · rintro ⟨x, hx, rfl⟩
    refine map_eq_ok_iff.mpr ⟨_, ?_, (hset x).symm⟩
    exact (Record.Place.result_eq_ok_iff nodup_fields hfull).mpr ⟨x, hx, rfl⟩

/-! ### Fields of integers -/

/-- The fields that hold an instant. -/
inductive InstantField where
  | validityStart
  | originationEnd
  | consumptionEnd

namespace InstantField

def field : InstantField → Field
  | validityStart => .validityStart
  | originationEnd => .originationEnd
  | consumptionEnd => .consumptionEnd

def get (p : KeyParams) : InstantField → Option Instant
  | validityStart => p.validityStart
  | originationEnd => p.originationEnd
  | consumptionEnd => p.consumptionEnd

def set (p : KeyParams) (t? : Option Instant) : InstantField → KeyParams
  | validityStart => { p with validityStart := t? }
  | originationEnd => { p with originationEnd := t? }
  | consumptionEnd => { p with consumptionEnd := t? }

@[simp]
theorem get_set (instant : InstantField) (p : KeyParams) (t? : Option Instant) :
    instant.get (instant.set p t?) = t? := by
  cases instant <;> rfl

theorem get_withLists (instant : InstantField) (p : KeyParams) :
    instant.get p.withLists = instant.get p := by
  cases instant <;> rfl

theorem set_withLists (instant : InstantField) (p : KeyParams) (t? : Option Instant) :
    instant.set p.withLists t? = (instant.set p t?).withLists := by
  cases instant <;> rfl

theorem keyAlias_set (instant : InstantField) (p : KeyParams) (t? : Option Instant) :
    (instant.set p t?).keyAlias = p.keyAlias := by
  cases instant <;> rfl

theorem ofJson_fill_eq_ok_iff (instant : InstantField) (place : record.Place instant.field)
    (hvalue : IsValue value) (hother : IsValue other)
    (hbase : ofJson (String.ofList (Item.text ⟨before, place.fill value, after⟩)) = .ok base) :
    ofJson (String.ofList (Item.text ⟨before, place.fill other, after⟩)) = .ok p ↔
      ∃ t?, Instant.codec.orNull.readAll other = .ok t? ∧ instant.set base t? = p := by
  cases instant <;> exact KeyParams.ofJson_fill_eq_ok_iff place hvalue hother hbase

theorem exists_of_ofJson_fill (instant : InstantField) (outer : record.Place instant.field)
    {part : EpochOffset.Field} (inner : EpochOffset.record.Place part) (hvalue : IsValue value)
    (hother : IsValue other)
    (hbase : ofJson (String.ofList
      (Item.text ⟨before, outer.fill (inner.fill value), after⟩)) = .ok base) :
    ∃ t₀, instant.get base = some t₀ ∧ ∀ p,
      ofJson (String.ofList (Item.text ⟨before, outer.fill (inner.fill other), after⟩)) = .ok p ↔
        ∃ x, part.codec.readAll other = .ok x ∧
          ∃ t : Instant, t.parts = t₀.parts.set part x ∧ instant.set base (some t) = p := by
  have hfill := inner.isValue_fill hvalue
  obtain ⟨base?, hread, hset⟩ :=
    (instant.ofJson_fill_eq_ok_iff outer hfill hfill hbase).mp hbase
  obtain ⟨t₀, rfl, hiff⟩ := Instant.exists_of_readAll_fill inner hvalue hother hread
  refine ⟨t₀, by rw [← hset, get_set], fun p => ?_⟩
  rw [instant.ofJson_fill_eq_ok_iff outer hfill (inner.isValue_fill hother) hbase]
  constructor
  · rintro ⟨t?, ht, rfl⟩
    obtain ⟨x, hx, t, hparts, rfl⟩ := (hiff t?).mp ht
    exact ⟨x, hx, t, hparts, rfl⟩
  · rintro ⟨x, hx, t, hparts, rfl⟩
    exact ⟨some t, (hiff _).mpr ⟨x, hx, t, hparts, rfl⟩, rfl⟩

end InstantField

end Fill

/-- The fields that hold an integer, be it in an instant or not. -/
inductive IntegerField where
  | keySize
  | authenticationValidity
  | seconds (instant : InstantField)
  | nanos (instant : InstantField)

namespace IntegerField

/-- The least integer of the field. -/
def low : IntegerField → Int
  | keySize => 0
  | authenticationValidity => -2147483648
  | seconds _ => -9223372036854775808
  | nanos _ => 0

/-- The integers of the field are less than this. -/
def bound : IntegerField → Int
  | keySize => 4294967296
  | authenticationValidity => 2147483648
  | seconds _ => 9223372036854775808
  | nanos _ => nanosPerSecond

/-- The parameters hold `k` in the field, and for the rest are those of `base`. An instant keeps its other part. -/
def Stores (base : KeyParams) (k : Int) (p : KeyParams) : IntegerField → Prop
  | keySize => ∃ w : UInt32, w.toNat = k ∧ { base with keySize := w } = p
  | authenticationValidity =>
    ∃ w : Int32, w.toInt = k ∧ { base with authenticationValidity := w } = p
  | seconds instant => ∃ t₀ t : Instant, instant.get base = some t₀ ∧ t.seconds.toInt = k ∧
    t.nanos = t₀.nanos ∧ instant.set base (some t) = p
  | nanos instant => ∃ t₀ t : Instant, instant.get base = some t₀ ∧ t.nanos.toNat = k ∧
    t.seconds = t₀.seconds ∧ instant.set base (some t) = p

/-- The parameters have the field. They need not have an instant. -/
def Present (p : KeyParams) : IntegerField → Prop
  | keySize => True
  | authenticationValidity => True
  | seconds instant => (instant.get p).isSome
  | nanos instant => (instant.get p).isSome

variable {field : IntegerField} {base p : KeyParams} {k : Int}

theorem exists_word_iff {α : Type} {value : α → Int} {f : α → KeyParams} :
    (∃ p, ∃ w, value w = k ∧ f w = p) ↔ ∃ w, value w = k := by
  constructor
  · rintro ⟨p, w, hw, -⟩
    exact ⟨w, hw⟩
  · rintro ⟨w, hw⟩
    exact ⟨f w, w, hw, rfl⟩

theorem exists_stores_iff (h : field.Present base) :
    (∃ p, field.Stores base k p) ↔ field.low ≤ k ∧ k < field.bound := by
  cases field with
  | keySize => exact exists_word_iff.trans Codec.readsIntegers_word32.exists_iff
  | authenticationValidity => exact exists_word_iff.trans Codec.readsIntegers_int32.exists_iff
  | seconds instant =>
    obtain ⟨t₀, ht₀⟩ := Option.isSome_iff_exists.mp h
    refine Iff.trans ⟨?_, ?_⟩ Codec.readsIntegers_int64.exists_iff
    · rintro ⟨p, -, t, -, hk, -⟩
      exact ⟨t.seconds, hk⟩
    · rintro ⟨w, hw⟩
      exact ⟨_, t₀, ⟨w, t₀.nanos, t₀.nanos_lt⟩, ht₀, hw, rfl, rfl⟩
  | nanos instant =>
    obtain ⟨t₀, ht₀⟩ := Option.isSome_iff_exists.mp h
    constructor
    · rintro ⟨p, -, t, -, hk, -⟩
      have hlt := t.nanos_lt
      simp only [low, bound]
      omega
    · rintro ⟨hlow, hbound⟩
      have hsize : (nanosPerSecond : Int) < 4294967296 := by decide
      obtain ⟨w, hw⟩ : ∃ w : UInt32, (w.toNat : Int) = k :=
        Codec.readsIntegers_word32.exists_iff.mpr ⟨hlow, Int.lt_trans hbound hsize⟩
      have hlt : w.toNat < nanosPerSecond := by
        rw [← hw] at hbound
        exact Int.ofNat_lt.mp hbound
      exact ⟨_, t₀, ⟨t₀.seconds, w, hlt⟩, ht₀, hw, rfl, rfl⟩

/-- Building a descriptor does not touch integers. -/
theorem stores_withLists_iff {q : KeyParams} :
    field.Stores base.withLists k q ↔ ∃ p, field.Stores base k p ∧ p.withLists = q := by
  cases field with
  | keySize | authenticationValidity =>
    simp only [Stores, exists_exists_and_eq_and]
    rfl
  | seconds instant | nanos instant =>
    simp only [Stores, instant.get_withLists, instant.set_withLists]
    constructor
    · rintro ⟨t₀, t, hget, hk, hrest, rfl⟩
      exact ⟨_, ⟨t₀, t, hget, hk, hrest, rfl⟩, rfl⟩
    · rintro ⟨_, ⟨t₀, t, hget, hk, hrest, rfl⟩, rfl⟩
      exact ⟨t₀, t, hget, hk, hrest, rfl⟩

theorem Stores.keyAlias_eq (h : field.Stores base k p) : p.keyAlias = base.keyAlias := by
  cases field with
  | keySize =>
    obtain ⟨w, -, rfl⟩ := h
    rfl
  | authenticationValidity =>
    obtain ⟨w, -, rfl⟩ := h
    rfl
  | seconds instant | nanos instant =>
    obtain ⟨t₀, t, -, -, -, rfl⟩ := h
    exact instant.keyAlias_set base _

end IntegerField

/-- All of a document but the integer of a field, in an object or in an array. -/
inductive IntegerPlace : IntegerField → Type where
  | keySize (place : record.Place Field.keySize) : IntegerPlace .keySize
  | authenticationValidity (place : record.Place Field.authenticationValidity) :
      IntegerPlace .authenticationValidity
  | seconds {instant : InstantField} (outer : record.Place instant.field)
      (inner : EpochOffset.record.Place EpochOffset.Field.seconds) : IntegerPlace (.seconds instant)
  | nanos {instant : InstantField} (outer : record.Place instant.field)
      (inner : EpochOffset.record.Place EpochOffset.Field.nanos) : IntegerPlace (.nanos instant)

namespace IntegerPlace

variable {field : IntegerField}

def fill : IntegerPlace field → List Char → List Char
  | keySize place, value => place.fill value
  | authenticationValidity place, value => place.fill value
  | seconds outer inner, value => outer.fill (inner.fill value)
  | nanos outer inner, value => outer.fill (inner.fill value)

/-- The document with a value in the place, between blanks. -/
def document (place : IntegerPlace field) (before after : Blanks) (value : List Char) : String :=
  String.ofList (Item.text ⟨before, place.fill value, after⟩)

section Literals

variable {place : IntegerPlace field} {before after : Blanks} {value : List Char}
  (hvalue : IsValue value)
include hvalue

theorem present_of_ofJson {base : KeyParams}
    (hbase : ofJson (place.document before after value) = .ok base) : field.Present base := by
  cases place with
  | keySize => trivial
  | authenticationValidity => trivial
  | @seconds instant outer inner | @nanos instant outer inner =>
    obtain ⟨t₀, hget, -⟩ := instant.exists_of_ofJson_fill outer inner hvalue hvalue hbase
    exact Option.isSome_iff_exists.mpr ⟨t₀, hget⟩

variable {n : Numeral} {s : List Char} (hs : n.Spells s)
include hs

theorem ofJson_document_eq_ok_iff {base p : KeyParams}
    (hbase : ofJson (place.document before after value) = .ok base) :
    ofJson (place.document before after s) = .ok p ↔
      n.IsInteger s ∧ field.Stores base n.intValue p := by
  have hliteral : IsValue s := .number hs
  cases place with
  | keySize place =>
    exact (ofJson_fill_eq_ok_iff place hvalue hliteral hbase).trans
      (Codec.readsIntegers_word32.exists_readAll_iff hs)
  | authenticationValidity place =>
    exact (ofJson_fill_eq_ok_iff place hvalue hliteral hbase).trans
      (Codec.readsIntegers_int32.exists_readAll_iff hs)
  | @seconds instant outer inner =>
    obtain ⟨t₀, hget, hiff⟩ := instant.exists_of_ofJson_fill outer inner hvalue hliteral hbase
    refine (hiff p).trans ((Codec.readsIntegers_int64.exists_readAll_iff hs).trans
      (and_congr_right fun _ => ⟨?_, ?_⟩))
    · rintro ⟨w, hw, t, ht, rfl⟩
      obtain ⟨hseconds, hnanos⟩ := EpochOffset.mk.inj ht
      exact ⟨t₀, t, hget, hseconds ▸ hw, hnanos, rfl⟩
    · rintro ⟨t₁, t, hget₁, hk, hnanos, rfl⟩
      obtain rfl := Option.some.inj (hget.symm.trans hget₁)
      exact ⟨t.seconds, hk, t, congrArg (EpochOffset.mk t.seconds) hnanos, rfl⟩
  | @nanos instant outer inner =>
    obtain ⟨t₀, hget, hiff⟩ := instant.exists_of_ofJson_fill outer inner hvalue hliteral hbase
    refine (hiff p).trans ((Codec.readsIntegers_word32.exists_readAll_iff hs).trans
      (and_congr_right fun _ => ⟨?_, ?_⟩))
    · rintro ⟨w, hw, t, ht, rfl⟩
      obtain ⟨hseconds, hnanos⟩ := EpochOffset.mk.inj ht
      exact ⟨t₀, t, hget, hnanos ▸ hw, hseconds, rfl⟩
    · rintro ⟨t₁, t, hget₁, hk, hseconds, rfl⟩
      obtain rfl := Option.some.inj (hget.symm.trans hget₁)
      exact ⟨t.nanos, hk, t, congrArg (EpochOffset.mk · t.nanos) hseconds, rfl⟩

theorem exists_ofJson_document_iff {base : KeyParams}
    (hbase : ofJson (place.document before after value) = .ok base) :
    (∃ p, ofJson (place.document before after s) = .ok p) ↔
      n.IsInteger s ∧ field.low ≤ n.intValue ∧ n.intValue < field.bound := by
  simp only [ofJson_document_eq_ok_iff hvalue hs hbase, exists_and_left]
  rw [IntegerField.exists_stores_iff (present_of_ofJson hvalue hbase)]

theorem descriptor_document_eq_ok_iff {base d : Descriptor}
    (hbase : (Descriptor.ofJson (place.document before after value)).value = .ok base) :
    (Descriptor.ofJson (place.document before after s)).value = .ok d ↔
      n.IsInteger s ∧ field.Stores base.toParams n.intValue d.toParams := by
  obtain ⟨p₀, hp₀, hbuilt⟩ := Descriptor.ofJson_eq_ok_iff.mp hbase
  rw [Descriptor.ofJson_eq_ok_iff, Descriptor.ofParams_eq_ok_iff.mp hbuilt,
    IntegerField.stores_withLists_iff]
  constructor
  · rintro ⟨p, hp, hd⟩
    obtain ⟨hinteger, hstores⟩ := (ofJson_document_eq_ok_iff hvalue hs hp₀).mp hp
    exact ⟨hinteger, p, hstores, (Descriptor.ofParams_eq_ok_iff.mp hd).symm⟩
  · rintro ⟨hinteger, p, hstores, hlists⟩
    exact ⟨p, (ofJson_document_eq_ok_iff hvalue hs hp₀).mpr ⟨hinteger, hstores⟩,
      Descriptor.ofParams_eq_ok_iff.mpr hlists.symm⟩

/-- The alias stays, so a descriptor is built from whatever parameters are read. -/
theorem exists_descriptor_document_iff {base : Descriptor}
    (hbase : (Descriptor.ofJson (place.document before after value)).value = .ok base) :
    (∃ d, (Descriptor.ofJson (place.document before after s)).value = .ok d) ↔
      n.IsInteger s ∧ field.low ≤ n.intValue ∧ n.intValue < field.bound := by
  obtain ⟨p₀, hp₀, hbuilt⟩ := Descriptor.ofJson_eq_ok_iff.mp hbase
  rw [← exists_ofJson_document_iff hvalue hs hp₀]
  constructor
  · rintro ⟨d, hd⟩
    obtain ⟨p, hp, -⟩ := Descriptor.ofJson_eq_ok_iff.mp hd
    exact ⟨p, hp⟩
  · rintro ⟨p, hp⟩
    obtain ⟨-, hstores⟩ := (ofJson_document_eq_ok_iff hvalue hs hp₀).mp hp
    have halias := hstores.keyAlias_eq.trans (Descriptor.keyAlias_of_ofParams hbuilt)
    obtain ⟨d, hd, -⟩ := Descriptor.ofParams_of_alias halias
    exact ⟨d, Descriptor.ofJson_eq_ok_iff.mpr ⟨p, hp, hd⟩⟩

end Literals

end IntegerPlace

/-- In a document that is accepted with some value in the place of an integer, a number literal in that place is accepted exactly if it has neither fraction nor exponent, is not `-0`, and its value is in the range of the field. Then this value is what the parameters or the descriptor hold, and nothing else changes. -/
theorem integers_read_exactly {field : IntegerField} (place : IntegerPlace field)
    (before after : Blanks) {value : List Char} (hvalue : IsValue value) {n : Numeral}
    {s : List Char} (hs : n.Spells s) :
    (∀ base, ofJson (place.document before after value) = .ok base →
      ((∃ p, ofJson (place.document before after s) = .ok p) ↔
        n.IsInteger s ∧ field.low ≤ n.intValue ∧ n.intValue < field.bound) ∧
      ∀ p, ofJson (place.document before after s) = .ok p → field.Stores base n.intValue p) ∧
    ∀ base : Descriptor, (Descriptor.ofJson (place.document before after value)).value = .ok base →
      ((∃ d, (Descriptor.ofJson (place.document before after s)).value = .ok d) ↔
        n.IsInteger s ∧ field.low ≤ n.intValue ∧ n.intValue < field.bound) ∧
      ∀ d, (Descriptor.ofJson (place.document before after s)).value = .ok d →
        field.Stores base.toParams n.intValue d.toParams := by
  refine ⟨fun base hbase => ⟨place.exists_ofJson_document_iff hvalue hs hbase, fun p hp => ?_⟩,
    fun base hbase => ⟨place.exists_descriptor_document_iff hvalue hs hbase, fun d hd => ?_⟩⟩
  · exact ((place.ofJson_document_eq_ok_iff hvalue hs hbase).mp hp).2
  · exact ((place.descriptor_document_eq_ok_iff hvalue hs hbase).mp hd).2

/-! ### The nanoseconds of an instant -/

def stampedSample : KeyParams := { sample with validityStart := some .epoch }

def epochText : EpochOffset.Field → List Char
  | .seconds => writeInt 0
  | .nanos => writeInt 0

def stampedText : Field → List Char
  | .validityStart => EpochOffset.record.objectText epochText
  | field => sampleText field

theorem reads_stampedText (field : Field) :
    field.codec.read.Reads (stampedText field) (stampedSample.get field) := by
  cases field with
  | validityStart => exact reads_instant rfl
  | _ => exact (lawful_field _).reads rfl

def secondsMember : NamedMember :=
  ⟨Record.writtenMember (R := EpochOffset.record) epochText EpochOffset.Field.seconds,
    EpochOffset.Field.seconds.key.toList, spellsChars_flatMap_writeChar _,
    .number (Numeral.spells_writeInt 0)⟩

/-- The nanoseconds of the epoch. -/
def epochPlace : EpochOffset.record.Place EpochOffset.Field.nanos :=
  .member [secondsMember] []
    (Record.writtenMember (R := EpochOffset.record) epochText EpochOffset.Field.nanos)
    (spellsChars_flatMap_writeChar _)

/-- The nanoseconds of the first instant of the sample. -/
def stampedPlace : IntegerPlace (.nanos .validityStart) :=
  .nanos
    (.member (sampleMembers.take 4) (sampleMembers.drop 5)
      (Record.writtenMember (R := record) sampleText Field.validityStart)
      (spellsChars_flatMap_writeChar _))
    epochPlace

theorem fill_stampedPlace : stampedPlace.fill (writeInt 0) = record.objectText stampedText := by
  have hepoch : epochPlace.fill (writeInt 0) = stampedText .validityStart :=
    (Record.objectText_eq_writeObject (R := EpochOffset.record) epochText).symm
  have hsample : record.objectText stampedText = _ :=
    Record.objectText_eq_writeObject (R := record) stampedText
  rw [hsample, stampedPlace, IntegerPlace.fill, hepoch]
  rfl

theorem ofJson_stampedPlace :
    ofJson (stampedPlace.document .none .none (writeInt 0)) = .ok stampedSample := by
  rw [IntegerPlace.document, Item.text, fill_stampedPlace, Blanks.none, List.nil_append,
    List.append_nil]
  exact ofJson_objectText reads_stampedText

theorem integers_read_exactly_stampedPlace :
    (∃ p, ofJson (stampedPlace.document .none .none (writeInt 999999999)) = .ok p ∧
      IntegerField.Stores stampedSample 999999999 p (.nanos .validityStart)) ∧
    (∀ p, ofJson (stampedPlace.document .none .none (writeInt 1000000000)) ≠ .ok p) ∧
    ∀ p, ofJson (stampedPlace.document .none .none ['-', '0']) ≠ .ok p := by
  have hzero : IsValue (writeInt 0) := .number (Numeral.spells_writeInt 0)
  have hminus : Numeral.Spells ⟨true, ['0'], none, none⟩ ['-', '0'] :=
    Numeral.Spells.parts (n := ⟨true, ['0'], none, none⟩) (Numeral.isWhole_toDigits 0) .absent
      .absent
  obtain ⟨hlast, hstores⟩ := (integers_read_exactly stampedPlace .none .none hzero
    (Numeral.spells_writeInt 999999999)).1 _ ofJson_stampedPlace
  obtain ⟨hnext, -⟩ := (integers_read_exactly stampedPlace .none .none hzero
    (Numeral.spells_writeInt 1000000000)).1 _ ofJson_stampedPlace
  obtain ⟨hreal, -⟩ := (integers_read_exactly stampedPlace .none .none hzero
    hminus).1 _ ofJson_stampedPlace
  refine ⟨?_, fun p hp => ?_, fun p hp => ?_⟩
  · obtain ⟨p, hp⟩ := hlast.mpr ⟨⟨rfl, rfl, by decide⟩, by decide, by decide⟩
    exact ⟨p, hp, hstores p hp⟩
  · exact absurd (hnext.mp ⟨p, hp⟩).2.2 (by decide)
  · exact (hreal.mp ⟨p, hp⟩).1.ne_minusZero rfl

end KeyParams

end HardwareKeys

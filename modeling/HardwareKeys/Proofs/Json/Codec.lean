import Mathlib.Data.List.TakeWhile
import HardwareKeys.Proofs.Json.Spelling

/-!
# Lawful codecs

A codec is lawful when what it writes for a value spells the value. The scalar codecs are lawful, and lists, optional values and conversions keep the law.
-/

namespace HardwareKeys.Json

variable {α β : Type}

theorem mapM_eq_ok_iff {ε : Type} {f : α → Except ε β} {list : List α} {results : List β} :
    list.mapM f = .ok results ↔ List.Forall₂ (fun a b => f a = .ok b) list results := by
  induction list generalizing results with
  | nil =>
    rw [List.mapM_nil]
    constructor
    · rintro ⟨⟩
      exact .nil
    · rintro ⟨⟩
      rfl
  | cons a list ih =>
    rw [List.mapM_cons]
    constructor
    · intro h
      obtain ⟨b, hb, h⟩ := bind_eq_ok_iff.mp h
      obtain ⟨rest, hrest, h⟩ := bind_eq_ok_iff.mp h
      cases h
      exact .cons hb (ih.mp hrest)
    · rintro (_ | ⟨hb, hrest⟩)
      exact bind_eq_ok_iff.mpr ⟨_, hb, bind_eq_ok_iff.mpr ⟨_, ih.mpr hrest, rfl⟩⟩

theorem exists_mapM_eq_ok_iff {ε : Type} {f : α → Except ε β} {list : List α} :
    (∃ results, list.mapM f = .ok results) ↔ ∀ a ∈ list, ∃ b, f a = .ok b := by
  simp only [mapM_eq_ok_iff]
  induction list with
  | nil => simp
  | cons a list ih =>
    rw [List.forall_mem_cons, ← ih]
    constructor
    · rintro ⟨_, _ | ⟨hb, hrest⟩⟩
      exact ⟨⟨_, hb⟩, ⟨_, hrest⟩⟩
    · rintro ⟨⟨b, hb⟩, ⟨rest, hrest⟩⟩
      exact ⟨b :: rest, .cons hb hrest⟩

theorem mapM_eq_ok_map {ε : Type} {f : α → Except ε β} {g : α → β} {list : List α}
    (h : ∀ a ∈ list, f a = .ok (g a)) : list.mapM f = .ok (list.map g) := by
  rw [mapM_eq_ok_iff, List.forall₂_map_right_iff, List.forall₂_same]
  exact h

theorem map_eq_ok_iff {ε : Type} {x : Except ε α} {f : α → β} {b : β} :
    f <$> x = .ok b ↔ ∃ a, x = .ok a ∧ f a = b := by
  cases x <;> simp [Functor.map, Except.map]

theorem expectEnd_eq_ok_iff {rest : List Char} :
    expectEnd rest = .ok () ↔ ∀ c ∈ rest, isBlank c = true := by
  rw [expectEnd, skipBlanks, ← List.dropWhile_eq_nil_iff]
  split <;> simp [*]

theorem expectEnd_eq_error_iff {rest : List Char} {e : ReadError} :
    expectEnd rest = .error e ↔ (∃ c ∈ rest, isBlank c = false) ∧ e = .trailingCharacters := by
  have hnone : (∃ c ∈ rest, isBlank c = false) ↔ ¬∀ c ∈ rest, isBlank c = true := by simp
  rw [hnone, expectEnd, skipBlanks, ← List.dropWhile_eq_nil_iff]
  split <;> simp [*, eq_comm]

theorem Reader.run_mapOk_eq_ok_iff {r : Reader α} {f : α → Except ReadError β} {s rest : List Char}
    {b : β} : (r.mapOk f).run s = .ok (b, rest) ↔ ∃ a, r.run s = .ok (a, rest) ∧ f a = .ok b := by
  constructor
  · intro h
    obtain ⟨⟨a, tail⟩, hrun, h⟩ := bind_eq_ok_iff.mp h
    obtain ⟨b, hb, h⟩ := bind_eq_ok_iff.mp h
    cases h
    exact ⟨a, hrun, hb⟩
  · rintro ⟨a, hrun, hb⟩
    exact bind_eq_ok_iff.mpr ⟨_, hrun, bind_eq_ok_iff.mpr ⟨b, hb, rfl⟩⟩

namespace Codec

/-- What is written for a value spells it, and can be told from the blanks and brackets around it. -/
structure Lawful (c : Codec α) : Prop where
  reads : ∀ {a s}, c.write a = .ok s → c.read.Reads s a
  starts : ∀ {a s}, c.write a = .ok s → StartsItem s

/-- No value is written like `null`. -/
def NeverNull (c : Codec α) : Prop := ∀ {a s}, c.write a = .ok s → ∀ tail, s ≠ 'n' :: tail

/-- The value has a written form. -/
def Writes (c : Codec α) (a : α) : Prop := ∃ s, c.write a = .ok s

theorem lawful_boolean : boolean.Lawful where
  reads := by
    rintro value s ⟨⟩
    exact Reader.reads_boolean value
  starts := by
    rintro value s ⟨⟩
    cases value with
    | false => exact ⟨'f', _, rfl, by decide, by decide⟩
    | true => exact ⟨'t', _, rfl, by decide, by decide⟩

theorem startsItem_writeInt (n : Int) : StartsItem (writeInt n) := by
  obtain ⟨c, tail, htext, hc⟩ := (Numeral.spells_writeInt n).eq_cons
  rw [htext]
  exact startsItem_of_startsNumber hc tail

/-- A type of numbers within the range of 64 bits, signed or not. -/
theorem lawful_integer {expected : Expected} {convert : Int → Option α} {value : α → Int}
    (hlow : ∀ a, Int64.minValue.toInt ≤ value a) (hhigh : ∀ a, value a < UInt64.size)
    (hconvert : ∀ a, convert (value a) = some a) :
    Lawful ⟨.integer expected convert, fun a => .ok (writeInt (value a))⟩ where
  reads := by
    rintro a s ⟨⟩
    exact Reader.reads_integer (hlow a) (hhigh a) (hconvert a)
  starts := by
    rintro a s ⟨⟩
    exact startsItem_writeInt _

theorem lawful_word32 : word32.Lawful := by
  have hsize : UInt64.size = 18446744073709551616 := rfl
  have hmin := Int64.toInt_minValue
  refine lawful_integer (fun n => ?_) (fun n => ?_) (fun n => word32?_eq_some_iff.mpr rfl)
  · omega
  · have hn := n.toNat_lt
    omega

theorem lawful_int32 : int32.Lawful := by
  have hsize : UInt64.size = 18446744073709551616 := rfl
  have hmin := Int64.toInt_minValue
  refine lawful_integer (fun n => ?_) (fun n => ?_) (fun n => int32?_eq_some_iff.mpr rfl)
  · have hle := n.le_toInt
    omega
  · have hlt := n.toInt_lt
    omega

theorem lawful_int64 : int64.Lawful := by
  have hsize : UInt64.size = 18446744073709551616 := rfl
  have hmin := Int64.toInt_minValue
  refine lawful_integer (fun n => ?_) (fun n => ?_) (fun n => int64?_eq_some_iff.mpr rfl)
  · have hle := n.le_toInt
    omega
  · have hlt := n.toInt_lt
    omega

theorem startsItem_writeText (s : List Char) : StartsItem (writeText s) :=
  ⟨'"', _, rfl, by decide, by decide⟩

theorem lawful_text : text.Lawful where
  reads := by
    rintro value s ⟨⟩
    have hvalue : (.ok (String.ofList value.toList) : Except ReadError String) = .ok value := by
      rw [String.ofList_toList]
    exact (Reader.reads_chars .text value.toList).mapOk
      (f := fun chars => .ok (String.ofList chars)) hvalue
  starts := by
    rintro value s ⟨⟩
    exact startsItem_writeText _

theorem neverNull_text : text.NeverNull := by
  rintro value s ⟨⟩ tail heq
  cases heq

/-! ### Lists, optional values and conversions -/

variable {c : Codec α}

theorem write_list_eq_ok_iff {items : List α} {s : List Char} :
    c.list.write items = .ok s ↔
      ∃ texts, List.Forall₂ (fun a text => c.write a = .ok text) items texts ∧
        writeArray texts = s := by
  constructor
  · intro h
    obtain ⟨texts, htexts, h⟩ := bind_eq_ok_iff.mp h
    cases h
    exact ⟨texts, mapM_eq_ok_iff.mp htexts, rfl⟩
  · rintro ⟨texts, htexts, rfl⟩
    exact bind_eq_ok_iff.mpr ⟨texts, mapM_eq_ok_iff.mpr htexts, rfl⟩

theorem writes_list {items : List α} : c.list.Writes items ↔ ∀ a ∈ items, c.Writes a := by
  simp only [Writes, write_list_eq_ok_iff]
  rw [← exists_mapM_eq_ok_iff]
  simp only [mapM_eq_ok_iff]
  constructor
  · rintro ⟨s, texts, htexts, -⟩
    exact ⟨texts, htexts⟩
  · rintro ⟨texts, htexts⟩
    exact ⟨_, texts, htexts, rfl⟩

theorem Lawful.list (h : c.Lawful) : c.list.Lawful where
  reads := by
    intro items s hwrite
    obtain ⟨texts, htexts, rfl⟩ := write_list_eq_ok_iff.mp hwrite
    exact Reader.Reads.list
      (htexts.flip.imp fun _ _ hitem => ⟨h.reads hitem, h.starts hitem⟩)
  starts := by
    intro items s hwrite
    obtain ⟨texts, -, rfl⟩ := write_list_eq_ok_iff.mp hwrite
    exact ⟨'[', _, rfl, by decide, by decide⟩

theorem neverNull_list : c.list.NeverNull := by
  intro items s hwrite tail heq
  obtain ⟨texts, -, rfl⟩ := write_list_eq_ok_iff.mp hwrite
  cases heq

theorem Lawful.orNull (h : c.Lawful) (hnull : c.NeverNull) : c.orNull.Lawful where
  reads := by
    intro value s hwrite
    cases value with
    | none =>
      cases hwrite
      exact Reader.reads_null
    | some a => exact (h.reads hwrite).orNull (h.starts hwrite) (hnull hwrite)
  starts := by
    intro value s hwrite
    cases value with
    | none =>
      cases hwrite
      exact ⟨'n', _, rfl, by decide, by decide⟩
    | some a => exact h.starts hwrite

theorem writes_orNull {value : Option α} : c.orNull.Writes value ↔ ∀ a ∈ value, c.Writes a := by
  cases value with
  | none => simpa using ⟨writeNull, rfl⟩
  | some a =>
    simp only [Option.mem_def, Option.some.injEq, forall_eq']
    rfl

section Via

variable {decode : α → Except ReadError β} {encode : β → Except WriteError α}

theorem write_via_eq_ok_iff {b : β} {s : List Char} :
    (c.via decode encode).write b = .ok s ↔ ∃ a, encode b = .ok a ∧ c.write a = .ok s :=
  bind_eq_ok_iff

theorem writes_via {b : β} :
    (c.via decode encode).Writes b ↔ ∃ a, encode b = .ok a ∧ c.Writes a := by
  simp only [Writes, write_via_eq_ok_iff]
  constructor
  · rintro ⟨s, a, ha, hs⟩
    exact ⟨a, ha, s, hs⟩
  · rintro ⟨a, ha, s, hs⟩
    exact ⟨s, a, ha, hs⟩

theorem Lawful.via (h : c.Lawful) (hcode : ∀ {a b}, encode b = .ok a → decode a = .ok b) :
    (c.via decode encode).Lawful where
  reads := by
    intro b s hwrite
    obtain ⟨a, ha, hs⟩ := write_via_eq_ok_iff.mp hwrite
    exact (h.reads hs).mapOk (hcode ha)
  starts := by
    intro b s hwrite
    obtain ⟨a, -, hs⟩ := write_via_eq_ok_iff.mp hwrite
    exact h.starts hs

theorem NeverNull.via (h : c.NeverNull) : (c.via decode encode).NeverNull := by
  intro b s hwrite
  obtain ⟨a, -, hs⟩ := write_via_eq_ok_iff.mp hwrite
  exact h hs

end Via

/-! ### Whole texts -/

theorem readAll_of_run_error {s : List Char} {e : ReadError} (h : c.read.run s = .error e) :
    c.readAll s = .error e := by
  simp [readAll, h, bind, Except.bind]

theorem readAll_of_run {s rest : List Char} {a : α} (h : c.read.run s = .ok (a, rest)) :
    c.readAll s = (fun _ => a) <$> expectEnd rest := by
  simp only [readAll, h, bind, Except.bind]
  cases expectEnd rest <;> rfl

theorem readAll_of_reads {s : List Char} {a : α} (h : c.read.Reads s a) : c.readAll s = .ok a := by
  have hrun := h [] endsNumber_nil
  rw [List.append_nil] at hrun
  rw [readAll_of_run hrun]
  rfl

theorem readAll_eq_ok_iff {s : List Char} {a : α} :
    c.readAll s = .ok a ↔ ∃ rest, c.read.run s = .ok (a, rest) ∧ expectEnd rest = .ok () := by
  constructor
  · intro h
    obtain ⟨⟨a, rest⟩, hrun, h⟩ := bind_eq_ok_iff.mp h
    obtain ⟨⟨⟩, hend, h⟩ := bind_eq_ok_iff.mp h
    cases h
    exact ⟨rest, hrun, hend⟩
  · rintro ⟨rest, hrun, hend⟩
    rw [readAll_of_run hrun, hend]
    rfl

section ReadParts

variable {decode : α → Except ReadError β} {encode : β → Except WriteError α} {s : List Char}

theorem readAll_via_eq_ok_iff {b : β} :
    (c.via decode encode).readAll s = .ok b ↔ ∃ a, c.readAll s = .ok a ∧ decode a = .ok b := by
  simp only [readAll_eq_ok_iff, via, Reader.run_mapOk_eq_ok_iff]
  constructor
  · rintro ⟨rest, ⟨a, hrun, hb⟩, hend⟩
    exact ⟨a, ⟨rest, hrun, hend⟩, hb⟩
  · rintro ⟨a, ⟨rest, hrun, hend⟩, hb⟩
    exact ⟨rest, ⟨a, hrun, hb⟩, hend⟩

theorem readAll_via_of_error {a : α} {e : ReadError} (h : c.readAll s = .ok a)
    (hdecode : decode a = .error e) : (c.via decode encode).readAll s = .error e := by
  obtain ⟨rest, hrun, -⟩ := readAll_eq_ok_iff.mp h
  apply readAll_of_run_error
  simp [via, Reader.mapOk, hrun, hdecode, bind, Except.bind]

theorem readAll_orNull_of_ne (h : ∀ tail, skipBlanks s ≠ 'n' :: tail) :
    c.orNull.readAll s = some <$> c.readAll s := by
  have hrun : c.orNull.read.run s = (fun read => (some read.1, read.2)) <$> c.read.run s := by
    simp only [orNull, Reader.orNull]
    cases c.read.run s <;> rfl
  rw [readAll, hrun, readAll]
  cases c.read.run s with
  | error e => rfl
  | ok read =>
    obtain ⟨a, rest⟩ := read
    simp only [Functor.map, Except.map, bind, Except.bind]
    cases expectEnd rest <;> rfl

theorem readAll_orNull_ne_some {tail : List Char} (h : skipBlanks s = 'n' :: tail) (a : α) :
    c.orNull.readAll s ≠ .ok (some a) := by
  intro hread
  obtain ⟨rest, hrun, -⟩ := readAll_eq_ok_iff.mp hread
  simp only [orNull, Reader.orNull, h] at hrun
  obtain ⟨_, -, hrun⟩ := bind_eq_ok_iff.mp hrun
  cases hrun

end ReadParts

theorem exists_toText_iff {a : α} : (∃ s, c.toText a = .ok s) ↔ c.Writes a := by
  constructor
  · rintro ⟨s, h⟩
    cases hwrite : c.write a with
    | error e => simp [toText, hwrite, Functor.map, Except.map] at h
    | ok text => exact ⟨text, hwrite⟩
  · rintro ⟨text, hwrite⟩
    exact ⟨String.ofList text, by simp [toText, hwrite, Functor.map, Except.map]⟩

theorem Lawful.ofText_of_toText (h : c.Lawful) {a : α} {s : String} (hwrite : c.toText a = .ok s) :
    c.ofText s = .ok a := by
  cases htext : c.write a with
  | error e => simp [toText, htext, Functor.map, Except.map] at hwrite
  | ok text =>
    obtain rfl : String.ofList text = s := by
      simpa [toText, htext, Functor.map, Except.map] using hwrite
    rw [ofText, String.toList_ofList]
    exact readAll_of_reads (h.reads htext)

end Codec

end HardwareKeys.Json

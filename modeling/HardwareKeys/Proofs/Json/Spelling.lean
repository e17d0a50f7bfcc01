import Mathlib.Data.List.Forall2
import HardwareKeys.Proofs.Json.Numeral
import HardwareKeys.Proofs.Json.Text

/-!
# Spellings

A text spells a value for a reader when the reader takes the value off the front and leaves what follows. A number is the only value whose end is not marked by a character of its own, so what follows must not continue one. Scalars, optional values, conversions and arrays are spelled by what is written for them.
-/

namespace HardwareKeys.Json

variable {α β : Type}

/-- The reader takes `s` for `a`, whatever follows, as long as a number may end there. -/
def Reader.Reads (r : Reader α) (s : List Char) (a : α) : Prop :=
  ∀ rest, EndsNumber rest → r.run (s ++ rest) = .ok (a, rest)

/-- The first character belongs to a value, and not to the blanks or the bracket that may stand in its place. -/
def StartsItem (s : List Char) : Prop := ∃ c tail, s = c :: tail ∧ isBlank c = false ∧ c ≠ ']'

theorem skipBlanks_cons {c : Char} (h : isBlank c = false) (s : List Char) :
    skipBlanks (c :: s) = c :: s := by
  simp [skipBlanks, h]

theorem StartsItem.skipBlanks_append {s : List Char} (h : StartsItem s) (rest : List Char) :
    skipBlanks (s ++ rest) = s ++ rest := by
  obtain ⟨c, tail, rfl, hc, -⟩ := h
  exact skipBlanks_cons hc _

theorem startsItem_of_startsNumber {c : Char} (h : Numeral.startsNumber c = true)
    (tail : List Char) : StartsItem (c :: tail) := by
  refine ⟨c, tail, rfl, ?_, ?_⟩
  · rw [Bool.eq_false_iff]
    intro hblank
    simp only [isBlank, Bool.or_eq_true, decide_eq_true_eq] at hblank
    rcases hblank with ((rfl | rfl) | rfl) | rfl <;> exact absurd h (by decide)
  · rintro rfl
    exact absurd h (by decide)

theorem intercalate_comma_cons (text : List Char) (texts : List (List Char)) :
    [','].intercalate (text :: texts) = text ++ texts.flatMap (',' :: ·) := by
  induction texts generalizing text with
  | nil => simp
  | cons next texts ih =>
    rw [List.intercalate_cons_cons, ih]
    simp

namespace Reader

theorem reads_boolean (value : Bool) : boolean.Reads (writeBoolean value) value := by
  intro rest _
  cases value <;> rfl

theorem reads_integer {expected : Expected} {convert : Int → Option α} {n : Int} {a : α}
    (hlow : Int64.minValue.toInt ≤ n) (hhigh : n < UInt64.size) (hconvert : convert n = some a) :
    (integer expected convert).Reads (writeInt n) a := by
  intro rest hrest
  have hnumber := readNumber_writeInt hlow hhigh hrest
  obtain ⟨c, tail, htext, hc⟩ := (Numeral.spells_writeInt n).eq_cons
  rw [htext, List.cons_append] at hnumber ⊢
  have hblanks : skipBlanks (c :: (tail ++ rest)) = c :: (tail ++ rest) :=
    (startsItem_of_startsNumber hc []).skipBlanks_append _
  simp [integer, hblanks, hc, hnumber, bind, Except.bind, convertInteger, hconvert, pure,
    Except.pure]

theorem reads_chars (expected : Expected) (s : List Char) :
    (chars expected).Reads (writeText s) s := by
  intro rest _
  rw [writeText_append]
  exact readChars_flatMap_writeChar s rest

variable {r : Reader α}

theorem Reads.mapOk {s : List Char} {a : α} {b : β} {f : α → Except ReadError β}
    (h : r.Reads s a) (hf : f a = .ok b) : (r.mapOk f).Reads s b := by
  intro rest hrest
  simp [Reader.mapOk, h rest hrest, bind, Except.bind, hf, pure, Except.pure]

theorem reads_null : r.orNull.Reads writeNull none := fun _ _ => rfl

theorem Reads.orNull {s : List Char} {a : α} (h : r.Reads s a) (hstart : StartsItem s)
    (hnull : ∀ tail, s ≠ 'n' :: tail) : r.orNull.Reads s (some a) := by
  intro rest hrest
  obtain ⟨c, tail, rfl, hblank, -⟩ := hstart
  have hc : c ≠ 'n' := fun heq => hnull tail (by rw [heq])
  unfold Reader.orNull
  simp only [List.cons_append, skipBlanks_cons hblank]
  split
  · next heq => exact absurd (List.cons.inj heq).1 hc
  · have hrun := h rest hrest
    rw [List.cons_append] at hrun
    simp [hrun, bind, Except.bind, pure, Except.pure]

theorem nextItem_close (first : Bool) (rest : List Char) :
    nextItem first (']' :: rest) = .ok (false, rest) := rfl

theorem nextItem_first {s : List Char} (h : StartsItem s) (rest : List Char) :
    nextItem true (s ++ rest) = .ok (true, s ++ rest) := by
  obtain ⟨c, tail, rfl, hblank, hc⟩ := h
  simp [nextItem, skipBlanks_cons hblank]

theorem nextItem_comma {s : List Char} (h : StartsItem s) (rest : List Char) :
    nextItem false (',' :: (s ++ rest)) = .ok (true, s ++ rest) := by
  obtain ⟨c, tail, rfl, hblank, hc⟩ := h
  have hcomma : isBlank ',' = false := by decide
  simp [nextItem, skipBlanks_cons hcomma, skipBlanks_cons hblank, hc]

theorem items_of_close {first : Bool} {s rest : List Char}
    (hnext : nextItem first s = .ok (false, rest)) : r.items first s = .ok ([], rest) := by
  rw [items]
  split <;> simp_all

theorem items_of_item {first : Bool} {s item tail rest : List Char} {a : α} {list : List α}
    (hnext : nextItem first s = .ok (true, item)) (hitem : r.run item = .ok (a, tail))
    (hlist : r.items false tail = .ok (list, rest)) :
    r.items first s = .ok (a :: list, rest) := by
  rw [items]
  split
  · simp_all
  · simp_all
  · next h =>
    obtain rfl : item = _ := by simpa [hnext] using h
    split
    · simp_all
    · next h =>
      obtain ⟨rfl, rfl⟩ : a = _ ∧ tail = _ := by simpa [hitem] using h
      simp [hlist]

theorem endsNumber_flatMap_comma (texts : List (List Char)) {c : Char} (rest : List Char)
    (hc : continuesNumber c = false) : EndsNumber (texts.flatMap (',' :: ·) ++ c :: rest) := by
  cases texts with
  | nil => simpa using hc
  | cons text texts => simp [continuesNumber]

theorem items_flatMap_comma {texts : List (List Char)} {list : List α}
    (h : List.Forall₂ (fun s a => r.Reads s a ∧ StartsItem s) texts list) (rest : List Char) :
    r.items false (texts.flatMap (',' :: ·) ++ ']' :: rest) = .ok (list, rest) := by
  induction h with
  | nil => exact items_of_close (nextItem_close false rest)
  | @cons s a texts list hitem _ ih =>
    have hends := endsNumber_flatMap_comma texts rest (show continuesNumber ']' = false by decide)
    rw [List.flatMap_cons, List.append_assoc]
    exact items_of_item (nextItem_comma hitem.2 _) (hitem.1 _ hends) ih

theorem Reads.list {texts : List (List Char)} {list : List α}
    (h : List.Forall₂ (fun s a => r.Reads s a ∧ StartsItem s) texts list) :
    r.list.Reads (writeArray texts) list := by
  intro rest _
  have hrun : r.list.run (writeArray texts ++ rest) =
      r.items true ([','].intercalate texts ++ ']' :: rest) := by
    simp only [writeArray, List.cons_append, List.append_assoc, List.nil_append]
    rfl
  rw [hrun]
  cases h with
  | nil => exact items_of_close (nextItem_close true rest)
  | @cons s a texts list hitem htail =>
    have hends := endsNumber_flatMap_comma texts rest (show continuesNumber ']' = false by decide)
    rw [intercalate_comma_cons, List.append_assoc]
    exact items_of_item (nextItem_first hitem.2 _) (hitem.1 _ hends)
      (items_flatMap_comma htail rest)

end Reader

end HardwareKeys.Json

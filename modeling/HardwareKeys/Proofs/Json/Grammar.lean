import HardwareKeys.Json.Skip
import HardwareKeys.Proofs.Json.Spelling

/-!
# The grammar

Which texts are JSON values, said without a reader. Blanks may stand between any two tokens, a character stands for itself or is escaped, and nothing bounds the digits of a number or the nesting of brackets. A value by the grammar alone may hold escapes of lone surrogates; a text that stands for characters may not.
-/

namespace HardwareKeys.Json

structure Blanks where
  text : List Char
  blank : ∀ c ∈ text, isBlank c = true

namespace Blanks

def none : Blanks := ⟨[], List.forall_mem_nil _⟩

variable (blanks : Blanks)

@[simp]
theorem skipBlanks_append (s : List Char) : skipBlanks (blanks.text ++ s) = skipBlanks s := by
  rw [skipBlanks, List.dropWhile_append_of_pos blanks.blank, skipBlanks]

theorem endsNumber_append {s : List Char} (h : EndsNumber s) : EndsNumber (blanks.text ++ s) := by
  cases htext : blanks.text with
  | nil => simpa using h
  | cons c tail =>
    have hblank : isBlank c = true := blanks.blank c (by simp [htext])
    rw [List.cons_append, endsNumber_cons]
    simp only [isBlank, Bool.or_eq_true, decide_eq_true_eq] at hblank
    rcases hblank with ((rfl | rfl) | rfl) | rfl <;> decide

end Blanks

/-- A plain character or an escape, which need not stand for a character. -/
inductive IsForm : List Char → Prop where
  | plain {c : Char} (h : IsPlain c) : IsForm [c]
  | escape {letter : Char} (h : (escaped? letter).isSome) : IsForm ['\\', letter]
  | unit {digits : List Char} {unit : Nat} (h : SpellsUnit digits unit) :
      IsForm ('\\' :: 'u' :: digits)

/-- What may stand between the quotes of a text. -/
inductive IsBody : List Char → Prop where
  | nil : IsBody []
  | cons {form s : List Char} (hform : IsForm form) (hs : IsBody s) : IsBody (form ++ s)

/-- A value with the blanks around it. -/
structure Item where
  before : Blanks
  value : List Char
  after : Blanks

def Item.text (item : Item) : List Char := item.before.text ++ (item.value ++ item.after.text)

/-- The value is a text of the characters. -/
def Item.SpellsText (item : Item) (s : List Char) : Prop :=
  ∃ body, SpellsChars body s ∧ item.value = '"' :: (body ++ ['"'])

theorem spellsText_writeText (before after : Blanks) (s : List Char) :
    Item.SpellsText ⟨before, writeText s, after⟩ s :=
  ⟨_, spellsChars_flatMap_writeChar s, rfl⟩

/-- An entry of an object: what stands between the quotes of its key, and the value after the colon. -/
structure Member where
  before : Blanks
  key : List Char
  afterKey : Blanks
  item : Item

/-- The member after the opening quote of its key. -/
def Member.body (m : Member) : List Char :=
  m.key ++ '"' :: (m.afterKey.text ++ ':' :: m.item.text)

def Member.text (m : Member) : List Char := m.before.text ++ '"' :: m.body

def writeObject (members : List (List Char)) : List Char :=
  '\x7b' :: [','].intercalate members ++ ['\x7d']

/-- The texts of an array of the items: without any, blanks may stand between the brackets. -/
inductive SpellsArray : List Item → List Char → Prop where
  | empty (blanks : Blanks) : SpellsArray [] ('[' :: (blanks.text ++ [']']))
  | cons (item : Item) (items : List Item) :
      SpellsArray (item :: items) (writeArray ((item :: items).map Item.text))

/-- The texts of an object of the members: without any, blanks may stand between the braces. -/
inductive SpellsObject : List Member → List Char → Prop where
  | empty (blanks : Blanks) : SpellsObject [] ('\x7b' :: (blanks.text ++ ['\x7d']))
  | cons (m : Member) (members : List Member) :
      SpellsObject (m :: members) (writeObject ((m :: members).map Member.text))

theorem SpellsArray.eq_cons {items : List Item} {s : List Char} (h : SpellsArray items s) :
    ∃ tail, s = '[' :: tail := by
  cases h <;> exact ⟨_, rfl⟩

theorem SpellsObject.eq_cons {members : List Member} {s : List Char} (h : SpellsObject members s) :
    ∃ tail, s = '\x7b' :: tail := by
  cases h <;> exact ⟨_, rfl⟩

theorem spellsArray_writeArray (items : List Item) :
    SpellsArray items (writeArray (items.map Item.text)) := by
  cases items with
  | nil => exact .empty .none
  | cons item items => exact .cons item items

theorem spellsObject_writeObject (members : List Member) :
    SpellsObject members (writeObject (members.map Member.text)) := by
  cases members with
  | nil => exact .empty .none
  | cons m members => exact .cons m members

inductive IsValue : List Char → Prop where
  | null : IsValue writeNull
  | boolean (value : Bool) : IsValue (writeBoolean value)
  | number {n : Numeral} {s : List Char} (h : n.Spells s) : IsValue s
  | text {body : List Char} (h : IsBody body) : IsValue ('"' :: (body ++ ['"']))
  | emptyArray (blanks : Blanks) : IsValue ('[' :: (blanks.text ++ [']']))
  | array {item : Item} {items : List Item} (hitem : IsValue item.value)
      (hitems : ∀ other ∈ items, IsValue other.value) :
      IsValue (writeArray ((item :: items).map Item.text))
  | emptyObject (blanks : Blanks) : IsValue ('\x7b' :: (blanks.text ++ ['\x7d']))
  | object {m : Member} {members : List Member} (hkey : IsBody m.key)
      (hvalue : IsValue m.item.value) (hkeys : ∀ other ∈ members, IsBody other.key)
      (hvalues : ∀ other ∈ members, IsValue other.item.value) :
      IsValue (writeObject ((m :: members).map Member.text))

theorem IsValue.startsItem {s : List Char} (h : IsValue s) : StartsItem s := by
  cases h with
  | null => exact ⟨'n', _, rfl, by decide, by decide⟩
  | boolean value =>
    cases value with
    | false => exact ⟨'f', _, rfl, by decide, by decide⟩
    | true => exact ⟨'t', _, rfl, by decide, by decide⟩
  | number h =>
    obtain ⟨c, tail, rfl, hc⟩ := h.eq_cons
    exact startsItem_of_startsNumber hc tail
  | text => exact ⟨'"', _, rfl, by decide, by decide⟩
  | emptyArray => exact ⟨'[', _, rfl, by decide, by decide⟩
  | array => exact ⟨'[', _, rfl, by decide, by decide⟩
  | emptyObject => exact ⟨'\x7b', _, rfl, by decide, by decide⟩
  | object => exact ⟨'\x7b', _, rfl, by decide, by decide⟩

end HardwareKeys.Json

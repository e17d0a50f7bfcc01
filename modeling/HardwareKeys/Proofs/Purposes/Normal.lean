import Mathlib.Data.List.Perm.Subperm
import HardwareKeys.Proofs.KeyParams.Codec

/-!
# The normal form of written purposes

A written set lists the names of its bits in declaration order and ends with one hexadecimal number for the bits without a name, if it has any. There is one such text for every set of 32 bits, and it is read as that set, so what is written for a set that was read depends on its bits alone.
-/

namespace HardwareKeys.Purposes

open Json

/-- Names in declaration order, none of them twice, and perhaps bits of which none has a name. -/
@[ext]
structure NormalParts where
  names : List Purpose
  rest : Option Purposes
  names_sublist : names.Sublist Purpose.all
  rest_ne_empty : ∀ q ∈ rest, q ≠ empty
  rest_unnamed : ∀ q ∈ rest, ∀ purpose, q.allows purpose = false

namespace NormalParts

variable (n : NormalParts)

def texts : List (List Char) := n.names.map (·.name.toList) ++ n.rest.toList.map hexText

def text : List Char := separator.intercalate n.texts

/-- The set of the parts. -/
def union : Purposes := (n.names.map single ++ n.rest.toList).foldl Purposes.union empty

theorem isPart_of_mem_texts {s : List Char} (h : s ∈ n.texts) : IsPart s := by
  rw [texts, List.mem_append, List.mem_map, List.mem_map] at h
  rcases h with ⟨purpose, -, rfl⟩ | ⟨q, -, rfl⟩
  · exact isPart_name purpose
  · exact isPart_hexText q

theorem ofText_text : ofText n.text = .ok n.union := by
  rw [text, ofText_intercalate fun _ => n.isPart_of_mem_texts, texts, readParts_names_append, union]

theorem bit_union (i : Nat) : n.union.bit i =
    ((n.names.any fun purpose => purpose.index = i) || n.rest.any fun q => q.bit i) := by
  rw [union, bit_foldl_union, List.any_append, List.any_map, bit_empty, Bool.false_or]
  cases n.rest <;> simp [Function.comp_def]

theorem allows_union (purpose : Purpose) : n.union.allows purpose = true ↔ purpose ∈ n.names := by
  have hrest : (n.rest.any fun q => q.bit purpose.index) = false := by
    simp only [Option.any_eq_false]
    intro q hq
    rw [← allows_eq_bit, n.rest_unnamed q hq purpose]
  rw [allows_eq_bit, bit_union, hrest, Bool.or_false, List.any_eq_true]
  simp only [decide_eq_true_eq, Purpose.index_injective.eq_iff, exists_eq_right]

/-- The names are those of the union, for a list in declaration order is told by its members. -/
theorem toList_union : n.union.toList = n.names := by
  have hnodup : Purpose.all.Nodup := by decide
  have hall : n.names.filter n.union.allows = n.names :=
    List.filter_eq_self.mpr fun purpose => (n.allows_union purpose).mpr
  have hsublist : n.names.Sublist n.union.toList := by
    rw [← hall]
    exact n.names_sublist.filter _
  have hsubset : n.union.toList ⊆ n.names := by
    intro purpose hmem
    exact (n.allows_union purpose).mp (List.mem_filter.mp hmem).2
  exact (hsublist.eq_of_length_le (List.Nodup.subperm (hnodup.filter _) hsubset).length_le).symm

theorem unnamed_union : n.union.unnamed = n.rest.getD empty := by
  apply ext_bit
  intro i
  rw [unnamed, bit_diff, bit_union]
  by_cases hi : ∃ purpose : Purpose, purpose.index = i
  · obtain ⟨purpose, rfl⟩ := hi
    rw [bit_all_index, Bool.not_true, Bool.and_false]
    cases hrest : n.rest with
    | none => exact (bit_empty _).symm
    | some q =>
      have hq := n.rest_unnamed q hrest purpose
      rw [allows_eq_bit] at hq
      exact hq.symm
  · have hnone : ∀ list : List Purpose, (list.any fun purpose => purpose.index = i) = false := by
      intro list
      simpa using fun purpose _ h => hi ⟨purpose, h⟩
    rw [bit_all, hnone, hnone, Bool.false_or, Bool.not_false, Bool.and_true]
    cases n.rest <;> simp

end NormalParts

/-! ### The normal parts of a set -/

theorem unnamed_allows (p : Purposes) (purpose : Purpose) : p.unnamed.allows purpose = false := by
  rw [allows_eq_bit, unnamed, bit_diff, bit_all_index, Bool.not_true, Bool.and_false]

def normalParts (p : Purposes) : NormalParts where
  names := p.toList
  rest := if p.unnamed.isEmpty then none else some p.unnamed
  names_sublist := List.filter_sublist
  rest_ne_empty := by
    intro q hq hempty
    split at hq
    · cases hq
    · next hne =>
      obtain rfl := Option.some.inj hq
      rw [hempty] at hne
      exact hne rfl
  rest_unnamed := by
    intro q hq purpose
    split at hq
    · cases hq
    · obtain rfl := Option.some.inj hq
      exact p.unnamed_allows purpose

theorem text_normalParts (p : Purposes) : p.normalParts.text = p.text := by
  rw [NormalParts.text, NormalParts.texts, normalParts, text, partTexts]
  by_cases h : p.unnamed.isEmpty = true
  · simp only [if_pos h, Option.toList_none, List.map_nil]
  · simp only [if_neg h, Option.toList_some, List.map_cons, List.map_nil]

theorem union_normalParts (p : Purposes) : p.normalParts.union = p := by
  have hunion := p.normalParts.ofText_text
  rw [text_normalParts, ofText_text] at hunion
  exact (Except.ok.inj hunion).symm

namespace NormalParts

variable (n : NormalParts)

theorem normalParts_union : n.union.normalParts = n := by
  ext1
  · exact n.toList_union
  · change (if n.union.unnamed.isEmpty then none else some n.union.unnamed) = n.rest
    rw [unnamed_union]
    cases hrest : n.rest with
    | none => rfl
    | some q =>
      have hne := n.rest_ne_empty q hrest
      exact if_neg fun hempty => hne (eq_empty_of_isEmpty hempty)

/-- A set has one normal text, and it is the one that is written. -/
theorem ofText_eq_ok_iff {p : Purposes} : ofText n.text = .ok p ↔ n = p.normalParts := by
  rw [n.ofText_text, Except.ok.injEq]
  constructor
  · rintro rfl
    exact n.normalParts_union.symm
  · rintro rfl
    exact union_normalParts p

end NormalParts

/-- A hexadecimal number alone is read as its bits, named or not. -/
theorem ofText_hexText (p : Purposes) : ofText p.hexText = .ok p := by
  have hparts : ∀ s ∈ [p.hexText], IsPart s := List.forall_mem_singleton.mpr (isPart_hexText p)
  have hread : readParts empty [p.hexText] = .ok (empty.union p) :=
    readParts_map readPart_hexText empty [p]
  have hunion : empty.union p = p := ext_bit fun i => by simp
  have htext : separator.intercalate [p.hexText] = p.hexText := List.intercalate_singleton
  rw [← htext, ofText_intercalate hparts, hread, hunion]

theorem readAll_writeText {s : List Char} {p : Purposes} (h : ofText s = .ok p) :
    codec.readAll (writeText s) = .ok p := by
  have hchars : ofChars s = .ok p := by rw [ofChars, h]
  exact Codec.readAll_of_reads ((Reader.reads_chars .purposes s).mapOk hchars)

theorem toText_eq (p : Purposes) : codec.toText p = .ok (String.ofList (writeText p.text)) := rfl

theorem ofText_of_toText {p : Purposes} {s : String} (h : codec.toText p = .ok s) :
    codec.ofText s = .ok p :=
  lawful_codec.ofText_of_toText h

theorem toText_eq_toText_iff {p q : Purposes} :
    codec.toText p = codec.toText q ↔ p.bits = q.bits := by
  constructor
  · intro h
    have hp := ofText_of_toText (toText_eq p)
    have hq := ofText_of_toText (h.symm.trans (toText_eq p))
    exact congrArg bits (Except.ok.inj (hp.symm.trans hq))
  · intro h
    obtain rfl : p = q := by
      cases p
      exact congrArg Purposes.mk h
    rfl

/-- The text between the brackets of a message is read as the set it shows. -/
theorem exists_messageText (p : Purposes) :
    ∃ inner, p.messageText = "KeyPurpose(".toList ++ inner ++ [')'] ∧ ofText inner = .ok p ∧
      (p = empty → inner = "0x0".toList) := by
  refine ⟨_, rfl, ?_, ?_⟩
  · split
    · exact ofText_hexText p
    · exact ofText_text p
  · rintro rfl
    decide

theorem count_names (n : NormalParts) (purpose : Purpose) :
    n.names.count purpose = if n.union.allows purpose then 1 else 0 := by
  have hnodup : n.names.Nodup := n.names_sublist.nodup (by decide)
  simp only [hnodup.count, n.allows_union]

/-- Any 32 bits are written and read back, in JSON and between the brackets of a message. What is written is the one normal text of the set, with the name of each named bit once and the bits without a name in one number, so texts that are read as the same bits, and only these, lead to the same text. -/
theorem toText_canonical :
    (∀ bits : UInt32, ∃ s, codec.toText ⟨bits⟩ = .ok s ∧ codec.ofText s = .ok ⟨bits⟩) ∧
    (∀ bits : UInt32, ∃ inner,
      messageText ⟨bits⟩ = "KeyPurpose(".toList ++ inner ++ [')'] ∧
      codec.readAll (writeText inner) = .ok ⟨bits⟩ ∧ (bits = 0 → inner = "0x0".toList)) ∧
    (∀ bits : UInt32, ∃ n : NormalParts,
      codec.toText ⟨bits⟩ = .ok (String.ofList (writeText n.text)) ∧
      (∀ purpose, n.names.count purpose = if allows ⟨bits⟩ purpose then 1 else 0) ∧
      n.union = ⟨bits⟩ ∧ ∀ other : NormalParts, ofText other.text = .ok ⟨bits⟩ → other = n) ∧
    ∀ (s t : String) (p q : Purposes), codec.ofText s = .ok p → codec.ofText t = .ok q →
      (codec.toText p = codec.toText q ↔ p.bits = q.bits) := by
  refine ⟨fun bits => ⟨_, toText_eq _, ofText_of_toText (toText_eq _)⟩, fun bits => ?message,
    fun bits => ⟨normalParts ⟨bits⟩, ?written, ?names, union_normalParts _, fun other =>
      other.ofText_eq_ok_iff.mp⟩, fun _ _ _ _ _ _ => toText_eq_toText_iff⟩
  case message =>
    obtain ⟨inner, hinner, hread, hempty⟩ := exists_messageText ⟨bits⟩
    exact ⟨inner, hinner, readAll_writeText hread, fun h => hempty (congrArg Purposes.mk h)⟩
  case written =>
    rw [text_normalParts, toText_eq]
  case names =>
    intro purpose
    rw [count_names, union_normalParts]

/-- The normal parts of named bits below and above an unnamed one. -/
def mixedParts : NormalParts where
  names := [.encrypt, .decrypt, .attestKey]
  rest := some ⟨0x10⟩
  names_sublist := by decide
  rest_ne_empty := by
    rintro q ⟨⟩
    decide
  rest_unnamed := by
    rintro q ⟨⟩ purpose
    cases purpose <;> decide

theorem toText_mixedBits :
    codec.toText ⟨0x93⟩ = .ok (String.ofList (writeText mixedParts.text)) ∧
    ∃ s t, codec.ofText s = .ok ⟨0x93⟩ ∧ codec.ofText t = .ok ⟨0x83⟩ ∧
      codec.toText ⟨0x93⟩ ≠ codec.toText ⟨0x83⟩ := by
  obtain ⟨hround, -, hnormal, hsame⟩ := toText_canonical
  refine ⟨?parts, ?texts⟩
  case parts =>
    obtain ⟨n, hwritten, -, -, hunique⟩ := hnormal 0x93
    obtain rfl : mixedParts = n := hunique mixedParts (by decide)
    exact hwritten
  case texts =>
    obtain ⟨s, -, hs⟩ := hround 0x93
    obtain ⟨t, -, ht⟩ := hround 0x83
    refine ⟨s, t, hs, ht, fun h => ?_⟩
    cases (hsame s t _ _ hs ht).mp h

end HardwareKeys.Purposes

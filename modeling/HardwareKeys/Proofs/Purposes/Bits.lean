import HardwareKeys.Purposes.Text

/-!
# Purposes bit by bit

A set of purposes is the same as its 32 bits, and every operation acts on each bit alone. Seen this way a set is the union of its named bits and the rest.
-/

namespace HardwareKeys

/-- The place of the bit of a purpose. -/
def Purpose.index : Purpose → Nat
  | encrypt => 0
  | decrypt => 1
  | sign => 2
  | verify => 3
  | wrapKey => 5
  | agreeKey => 6
  | attestKey => 7

theorem Purpose.toBitVec_mask (purpose : Purpose) :
    purpose.mask.toBitVec = BitVec.twoPow 32 purpose.index := by
  cases purpose <;> decide

theorem Purpose.index_lt (purpose : Purpose) : purpose.index < 32 := by
  cases purpose <;> decide

theorem Purpose.index_injective : Function.Injective index := by
  intro purpose other h
  cases purpose <;> cases other <;> first | rfl | cases h

namespace Purposes

/-- Whether bit `i` is in the set. -/
def bit (p : Purposes) (i : Nat) : Bool := p.bits.toBitVec.getLsbD i

theorem ext_bit {p q : Purposes} (h : ∀ i, p.bit i = q.bit i) : p = q := by
  obtain ⟨⟨p⟩⟩ := p
  obtain ⟨⟨q⟩⟩ := q
  congr 2
  exact BitVec.eq_of_getLsbD_eq fun i _ => h i

@[simp]
theorem bit_empty (i : Nat) : empty.bit i = false := by
  simp [bit, empty]

@[simp]
theorem bit_union (p q : Purposes) (i : Nat) : (p.union q).bit i = (p.bit i || q.bit i) := by
  simp [bit, union]

@[simp]
theorem bit_inter (p q : Purposes) (i : Nat) : (p.inter q).bit i = (p.bit i && q.bit i) := by
  simp [bit, inter]

theorem bit_of_le (p : Purposes) {i : Nat} (h : 32 ≤ i) : p.bit i = false :=
  BitVec.getLsbD_of_ge _ _ h

@[simp]
theorem bit_diff (p q : Purposes) (i : Nat) : (p.diff q).bit i = (p.bit i && !q.bit i) := by
  by_cases h : i < 32
  · simp [bit, diff, h]
  · simp [bit_of_le, Nat.le_of_not_lt h]

@[simp]
theorem bit_symmDiff (p q : Purposes) (i : Nat) :
    (p.symmDiff q).bit i = (p.bit i ^^ q.bit i) := by
  simp [bit, symmDiff]

@[simp]
theorem bit_named (p : Purposes) (i : Nat) : p.named.bit i = (p.bit i && all.bit i) :=
  bit_inter p all i

@[simp]
theorem bit_complement (p : Purposes) (i : Nat) :
    p.complement.bit i = (!p.bit i && all.bit i) := by
  rw [complement, bit_named]
  by_cases h : i < 32
  · simp [bit, h]
  · rw [all.bit_of_le (Nat.le_of_not_lt h), Bool.and_false, Bool.and_false]

@[simp]
theorem bit_single (purpose : Purpose) (i : Nat) :
    (single purpose).bit i = decide (purpose.index = i) := by
  simp [bit, single, Purpose.toBitVec_mask, BitVec.getLsbD_twoPow, purpose.index_lt]

theorem bit_foldl_union (list : List Purposes) (p : Purposes) (i : Nat) :
    (list.foldl union p).bit i = (p.bit i || list.any fun q => q.bit i) := by
  induction list generalizing p with
  | nil => simp
  | cons q list ih => simp [ih, Bool.or_assoc]

theorem allows_eq_bit (p : Purposes) (purpose : Purpose) :
    p.allows purpose = p.bit purpose.index := by
  rw [Bool.eq_iff_iff, allows, contains, beq_iff_eq]
  constructor
  · intro h
    have hbit := congrArg (bit · purpose.index) h
    simpa using hbit
  · intro h
    apply ext_bit
    intro i
    by_cases hi : purpose.index = i
    · subst hi
      simp [h]
    · simp [hi]

theorem bit_all (i : Nat) : all.bit i = Purpose.all.any fun purpose => purpose.index = i := by
  have hfold : all = (Purpose.all.map single).foldl union empty := rfl
  rw [hfold, bit_foldl_union]
  simp [List.any_map, Function.comp_def]

theorem bit_all_index (purpose : Purpose) : all.bit purpose.index = true := by
  rw [bit_all, List.any_eq_true]
  exact ⟨purpose, purpose.mem_all, decide_eq_true rfl⟩

theorem eq_empty_of_isEmpty {p : Purposes} (h : p.isEmpty = true) : p = empty := by
  obtain ⟨bits⟩ := p
  exact congrArg Purposes.mk (beq_iff_eq.mp h)

theorem foldl_union_parts (p : Purposes) : p.parts.foldl union empty = p := by
  apply ext_bit
  intro i
  have hnamed : (p.toList.map single).any (fun q => q.bit i) = (p.bit i && all.bit i) := by
    rw [bit_all, List.any_map, toList, List.any_filter, Bool.eq_iff_iff]
    simp only [List.any_eq_true, Bool.and_eq_true, Function.comp_apply, bit_single,
      decide_eq_true_eq, allows_eq_bit]
    constructor
    · rintro ⟨purpose, hmem, hbit, rfl⟩
      exact ⟨hbit, purpose, hmem, rfl⟩
    · rintro ⟨hbit, purpose, hmem, rfl⟩
      exact ⟨purpose, hmem, hbit, rfl⟩
  have hunnamed : (if p.unnamed.isEmpty then [] else [p.unnamed]).any (fun q => q.bit i) =
      (p.bit i && !all.bit i) := by
    split
    · next h =>
      have hbit := congrArg (bit · i) (eq_empty_of_isEmpty h)
      simpa [unnamed] using hbit.symm
    · simp [unnamed]
  rw [bit_foldl_union, parts, List.any_append, hnamed, hunnamed, bit_empty]
  cases p.bit i <;> cases all.bit i <;> rfl

end Purposes

end HardwareKeys

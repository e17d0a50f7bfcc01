import Mathlib.Data.List.Forall2
import HardwareKeys.Proofs.Purposes.Bits

/-!
# Runs of changes, bit by bit

What a change makes of a bit depends on this bit of the set and of the operand alone, so a run of changes is a run of its own on every bit. On a bit with a name it is one of Boolean algebra. On a bit without a name it differs in `complement` only, which clears the bit instead of turning it over, and this is where the laws of sets fail.
-/

namespace HardwareKeys.Purposes

/-- No purpose has bit `i`. -/
def IsUnnamed (i : Nat) : Prop := ∀ purpose : Purpose, purpose.index ≠ i

theorem isUnnamed_iff {i : Nat} : IsUnnamed i ↔ all.bit i = false := by
  rw [bit_all, List.any_eq_false]
  constructor
  · intro h purpose _
    simpa using h purpose
  · intro h purpose
    simpa using h purpose purpose.mem_all

instance (i : Nat) : Decidable (IsUnnamed i) := decidable_of_iff _ isUnnamed_iff.symm

/-- What a change makes of a truth value, where `value` tells the truth value of an operand and `flip` takes the complement. In Boolean algebra `flip` is `not`. -/
def Change.act (flip : Bool → Bool) (value : Purposes → Bool) (x : Bool) : Change → Bool
  | .insert operand => x || value operand
  | .remove operand => x && !value operand
  | .toggle operand => x ^^ value operand
  | .retain operand => x && value operand
  | .complement => flip x

theorem bit_apply (i : Nat) (p : Purposes) (change : Change) :
    (p.apply change).bit i = change.act (fun x => !x && all.bit i) (·.bit i) (p.bit i) := by
  cases change with
  | insert operand => exact bit_union p operand i
  | remove operand => exact bit_diff p operand i
  | toggle operand => exact bit_symmDiff p operand i
  | retain operand => exact bit_inter p operand i
  | complement => exact bit_complement p i

/-- The changes are of one kind and their operands agree in bit `i`. -/
inductive Change.AgreeAt (i : Nat) : Change → Change → Prop
  | insert {q r : Purposes} (h : q.bit i = r.bit i) : AgreeAt i (.insert q) (.insert r)
  | remove {q r : Purposes} (h : q.bit i = r.bit i) : AgreeAt i (.remove q) (.remove r)
  | toggle {q r : Purposes} (h : q.bit i = r.bit i) : AgreeAt i (.toggle q) (.toggle r)
  | retain {q r : Purposes} (h : q.bit i = r.bit i) : AgreeAt i (.retain q) (.retain r)
  | complement : AgreeAt i .complement .complement

theorem Change.AgreeAt.act_eq {i : Nat} {change other : Change} (h : change.AgreeAt i other)
    (flip : Bool → Bool) (x : Bool) :
    change.act flip (·.bit i) x = other.act flip (·.bit i) x := by
  cases h with
  | insert h => simp only [act, h]
  | remove h => simp only [act, h]
  | toggle h => simp only [act, h]
  | retain h => simp only [act, h]
  | complement => rfl

theorem bit_applyAll (i : Nat) (p : Purposes) (changes : List Change) : (p.applyAll changes).bit i =
    changes.foldl (Change.act (fun x => !x && all.bit i) (·.bit i)) (p.bit i) := by
  have hstep (q : Purposes) (change : Change) :
      change.act (fun x => !x && all.bit i) (·.bit i) (q.bit i) = (q.apply change).bit i :=
    (bit_apply i q change).symm
  exact (List.foldl_hom (bit · i) hstep).symm

section Runs

variable {i : Nat} {p q : Purposes} {changes others : List Change}

theorem foldl_act_of_agreeAt (h : List.Forall₂ (Change.AgreeAt i) changes others)
    (flip : Bool → Bool) (x : Bool) :
    changes.foldl (Change.act flip (·.bit i)) x = others.foldl (Change.act flip (·.bit i)) x := by
  induction h generalizing x with
  | nil => rfl
  | cons hchange _ ih => rw [List.foldl_cons, List.foldl_cons, hchange.act_eq, ih]

theorem bit_applyAll_of_agreeAt (hbit : p.bit i = q.bit i)
    (h : List.Forall₂ (Change.AgreeAt i) changes others) :
    (p.applyAll changes).bit i = (q.applyAll others).bit i := by
  rw [bit_applyAll, bit_applyAll, hbit, foldl_act_of_agreeAt h]

theorem bit_applyAll_index (purpose : Purpose) : (p.applyAll changes).bit purpose.index =
    changes.foldl (Change.act not (·.bit purpose.index)) (p.bit purpose.index) := by
  simp only [bit_applyAll, bit_all_index, Bool.and_true]

theorem allows_applyAll (purpose : Purpose) : (p.applyAll changes).allows purpose =
    changes.foldl (Change.act not (·.allows purpose)) (p.allows purpose) := by
  simp only [allows_eq_bit, bit_applyAll_index]

theorem can_applyAll {can : Purposes → Bool} (h : can ∈ predicates) :
    can (p.applyAll changes) = changes.foldl (Change.act not can) (can p) := by
  rw [predicates_eq_map, List.mem_map] at h
  obtain ⟨purpose, -, rfl⟩ := h
  exact allows_applyAll purpose

theorem bit_applyAll_of_isUnnamed (h : IsUnnamed i) : (p.applyAll changes).bit i =
    changes.foldl (Change.act (fun _ => false) (·.bit i)) (p.bit i) := by
  simp only [bit_applyAll, isUnnamed_iff.mp h, Bool.and_false]

end Runs

theorem complement_complement (p : Purposes) : p.complement.complement = p.named := by
  apply ext_bit
  intro i
  rw [bit_complement, bit_complement, bit_named]
  cases p.bit i <;> cases all.bit i <;> rfl

/-- A complement has no bits without a name, and a difference has those of the first set that the second lacks. -/
theorem diff_eq_inter_complement_iff (p q : Purposes) : p.diff q = p.inter q.complement ↔
    ∀ i, IsUnnamed i → p.bit i = true → q.bit i = true := by
  constructor
  · intro h i hi hp
    have hbit := congrArg (bit · i) h
    simpa [isUnnamed_iff.mp hi, hp] using hbit
  · intro h
    apply ext_bit
    intro i
    rw [bit_diff, bit_inter, bit_complement]
    cases hall : all.bit i with
    | true => rw [Bool.and_true]
    | false =>
      have hset := h i (isUnnamed_iff.mpr hall)
      cases hp : p.bit i with
      | false => rfl
      | true =>
        rw [hset hp]
        rfl

/-- Runs of the same kinds of changes end alike in every bit in which their starts and their operands agree. A bit with a name, and so each allowed purpose and the predicate that asks for it, goes through a run as in Boolean algebra; a bit without one does so too, but that `complement` clears it. Hence two complements leave the bits with a name, and a difference is the intersection with the complement just when no bit without a name is left in it. -/
theorem applyAll_bitwise :
    (∀ (i : Nat) (p q : Purposes) (changes others : List Change), p.bit i = q.bit i →
      List.Forall₂ (Change.AgreeAt i) changes others →
      (p.applyAll changes).bit i = (q.applyAll others).bit i) ∧
    (∀ (purpose : Purpose) (p : Purposes) (changes : List Change),
      (p.applyAll changes).bit purpose.index =
        changes.foldl (Change.act not (·.bit purpose.index)) (p.bit purpose.index) ∧
      (p.applyAll changes).allows purpose =
        changes.foldl (Change.act not (·.allows purpose)) (p.allows purpose)) ∧
    (∀ can ∈ predicates, ∀ (p : Purposes) (changes : List Change),
      can (p.applyAll changes) = changes.foldl (Change.act not can) (can p)) ∧
    (∀ i : Nat, IsUnnamed i → ∀ (p : Purposes) (changes : List Change),
      (p.applyAll changes).bit i =
        changes.foldl (Change.act (fun _ => false) (·.bit i)) (p.bit i)) ∧
    (∀ p : Purposes, p.complement.complement = p.named) ∧
    ∀ p q : Purposes, p.diff q = p.inter q.complement ↔
      ∀ i, IsUnnamed i → p.bit i = true → q.bit i = true := by
  refine ⟨?agree, ?named, ?predicates, ?unnamed, complement_complement,
    diff_eq_inter_complement_iff⟩
  case agree =>
    intro i p q changes others
    exact bit_applyAll_of_agreeAt
  case named =>
    intro purpose p changes
    exact ⟨bit_applyAll_index purpose, allows_applyAll purpose⟩
  case predicates =>
    intro can h p changes
    exact can_applyAll h
  case unnamed =>
    intro i h p changes
    exact bit_applyAll_of_isUnnamed h

/-- Bit 4 lies between bits with a name. The first change clears it, the second sets it, and the others keep it. -/
def changesAboutFour : List Change := [.complement, .toggle ⟨0x15⟩, .retain ⟨0x1F⟩, .remove ⟨0x4⟩]

/-- Does the same to bit 4, and something else to its neighbours. -/
def othersAboutFour : List Change := [.complement, .toggle ⟨0xF0⟩, .retain ⟨0x10⟩, .remove ⟨0⟩]

theorem agree_aboutFour : List.Forall₂ (Change.AgreeAt 4) changesAboutFour othersAboutFour :=
  .cons .complement (.cons (.toggle (by decide)) (.cons (.retain (by decide))
    (.cons (.remove (by decide)) .nil)))

theorem applyAll_bitFour :
    (applyAll ⟨0x11⟩ changesAboutFour).bit 4 = true ∧
    (applyAll ⟨0x12⟩ othersAboutFour).bit 4 = true ∧
    (applyAll ⟨0x11⟩ changesAboutFour).canEncrypt = true ∧
    (applyAll ⟨0x12⟩ othersAboutFour).canEncrypt = false ∧
    diff ⟨0x11⟩ ⟨0x1⟩ ≠ inter ⟨0x11⟩ (complement ⟨0x1⟩) := by
  obtain ⟨hagree, -, hcan, hunnamed, -, hdiff⟩ := applyAll_bitwise
  have hfour : IsUnnamed 4 := by decide
  have hrun := hunnamed 4 hfour ⟨0x11⟩ changesAboutFour
  have hencrypt : canEncrypt ∈ predicates := List.mem_cons_self
  refine ⟨hrun, ?other, hcan _ hencrypt _ changesAboutFour, hcan _ hencrypt _ othersAboutFour,
    ?differ⟩
  case other =>
    exact (hagree 4 ⟨0x11⟩ ⟨0x12⟩ _ _ (by decide) agree_aboutFour).symm.trans hrun
  case differ =>
    intro h
    have hset := (hdiff _ _).mp h 4 hfour (by decide)
    cases hset

end HardwareKeys.Purposes

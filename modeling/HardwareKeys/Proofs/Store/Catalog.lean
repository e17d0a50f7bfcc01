import Mathlib.Data.Finmap
import Mathlib.Data.Finset.Sort
import Mathlib.Data.String.Basic
import HardwareKeys.Proofs.Descriptor.Build
import HardwareKeys.Store

/-!
# Catalogs

A catalog is a finite map from aliases to descriptors that carries out the calls of a store. A descriptor is built when its parameters are inserted and handed out as it is afterwards. What a catalog holds under an alias is decided by the last call that changed the alias.
-/

namespace HardwareKeys

open Store (Call Reply)

structure Catalog where
  name : String
  entries : Finmap fun _ : String => Descriptor

namespace Catalog

def empty (name : String) : Catalog := ⟨name, ∅⟩

def step (c : Catalog) : Call → Catalog × Reply
  | .insert p =>
    match Descriptor.ofParams p with
    | .ok d => ({ c with entries := c.entries.insert d.keyAlias d }, .done)
    | .error e => (c, .failed e)
  | .remove keyAlias =>
    if keyAlias ∈ c.entries then ({ c with entries := c.entries.erase keyAlias }, .done)
    else (c, .failed (.keyNotFound keyAlias))
  | .keyInfo keyAlias =>
    match c.entries.lookup keyAlias with
    | some d => (c, .descriptor d)
    | none => (c, .failed (.keyNotFound keyAlias))
  | .contains keyAlias => (c, .flag (decide (keyAlias ∈ c.entries)))
  | .aliases => (c, .aliases (c.entries.keys.sort (· ≤ ·)))
  | .size => (c, .size c.entries.keys.card)
  | .isEmpty => (c, .flag (decide (c.entries.keys = ∅)))
  | .name => (c, .name c.name)

def run (c : Catalog) : List Call → Catalog × List Reply
  | [] => (c, [])
  | call :: rest =>
    let (next, reply) := c.step call
    let (last, replies) := next.run rest
    (last, reply :: replies)

theorem run_cons (c : Catalog) (call : Call) (rest : List Call) :
    c.run (call :: rest) =
      (((c.step call).1.run rest).1, (c.step call).2 :: ((c.step call).1.run rest).2) := rfl

abbrev Exchange : Type := Call × Reply

/-- The call stored the descriptor under the alias. -/
def Stores (keyAlias : String) (d : Descriptor) (exchange : Exchange) : Prop :=
  ∃ p, exchange = (.insert p, .done) ∧ p.keyAlias = some keyAlias ∧ Descriptor.ofParams p = .ok d

/-- The call stored something under the alias or removed what was stored. -/
def Changes (keyAlias : String) (exchange : Exchange) : Prop :=
  exchange = (.remove keyAlias, .done) ∨
    ∃ p, exchange = (.insert p, .done) ∧ p.keyAlias = some keyAlias

/-- The descriptor comes from the last call that changed the alias. -/
def LastStored (keyAlias : String) (d : Descriptor) (history : List Exchange) : Prop :=
  ∃ earlier exchange later, history = earlier ++ exchange :: later ∧
    Stores keyAlias d exchange ∧ ∀ other ∈ later, ¬Changes keyAlias other

section Changes

variable {c : Catalog} {keyAlias : String} {d : Descriptor}

theorem lastStored_cons_iff {exchange : Exchange} {history : List Exchange} :
    LastStored keyAlias d (exchange :: history) ↔
      LastStored keyAlias d history ∨
        Stores keyAlias d exchange ∧ ∀ other ∈ history, ¬Changes keyAlias other := by
  constructor
  · rintro ⟨earlier, last, later, heq, hstores, hlater⟩
    cases earlier with
    | nil =>
      obtain ⟨rfl, rfl⟩ := List.cons.inj heq
      exact .inr ⟨hstores, hlater⟩
    | cons first earlier =>
      obtain ⟨rfl, rfl⟩ := List.cons.inj heq
      exact .inl ⟨earlier, last, later, rfl, hstores, hlater⟩
  · rintro (⟨earlier, last, later, rfl, hstores, hlater⟩ | ⟨hstores, hlater⟩)
    · exact ⟨exchange :: earlier, last, later, rfl, hstores, hlater⟩
    · exact ⟨[], exchange, history, rfl, hstores, hlater⟩

theorem not_changes_of_reply_ne {call : Call} {reply : Reply} (h : reply ≠ .done) :
    ¬Changes keyAlias (call, reply) := by
  rintro (heq | ⟨p, heq, -⟩)
  · exact h (Prod.mk.inj heq).2
  · exact h (Prod.mk.inj heq).2

theorem changes_insert_iff {p : KeyParams} :
    Changes keyAlias (.insert p, .done) ↔ p.keyAlias = some keyAlias := by
  simp [Changes]

theorem changes_remove_iff {removed : String} :
    Changes keyAlias (.remove removed, .done) ↔ removed = keyAlias := by
  simp [Changes]

theorem stores_insert_iff {p : KeyParams} :
    Stores keyAlias d (.insert p, .done) ↔
      p.keyAlias = some keyAlias ∧ Descriptor.ofParams p = .ok d := by
  simp [Stores]

theorem not_stores_remove {removed : String} : ¬Stores keyAlias d (.remove removed, .done) := by
  rintro ⟨p, heq, -⟩
  cases heq

theorem not_stores_of_reply_ne {call : Call} {reply : Reply} (h : reply ≠ .done) :
    ¬Stores keyAlias d (call, reply) := by
  rintro ⟨p, heq, -⟩
  exact h (Prod.mk.inj heq).2

theorem lookup_insert_iff {p : KeyParams} {built : Descriptor}
    (h : Descriptor.ofParams p = .ok built) :
    (c.entries.insert built.keyAlias built).lookup keyAlias = some d ↔
      Stores keyAlias d (.insert p, .done) ∨
        ¬Changes keyAlias (.insert p, .done) ∧ c.entries.lookup keyAlias = some d := by
  rw [stores_insert_iff, changes_insert_iff, Descriptor.keyAlias_of_ofParams h, h]
  by_cases halias : built.keyAlias = keyAlias
  · rw [← halias, Finmap.lookup_insert]
    simp
  · rw [Finmap.lookup_insert_of_ne _ (Ne.symm halias)]
    simp [halias]

theorem lookup_erase_iff {removed : String} :
    (c.entries.erase removed).lookup keyAlias = some d ↔
      Stores keyAlias d (.remove removed, .done) ∨
        ¬Changes keyAlias (.remove removed, .done) ∧ c.entries.lookup keyAlias = some d := by
  rw [changes_remove_iff, or_iff_right not_stores_remove]
  by_cases halias : removed = keyAlias
  · rw [halias, Finmap.lookup_erase]
    simp
  · rw [Finmap.lookup_erase_ne (Ne.symm halias)]
    simp [halias]

theorem lookup_iff_of_reply_ne {call : Call} {reply : Reply} (h : reply ≠ .done) :
    c.entries.lookup keyAlias = some d ↔
      Stores keyAlias d (call, reply) ∨
        ¬Changes keyAlias (call, reply) ∧ c.entries.lookup keyAlias = some d := by
  rw [or_iff_right (not_stores_of_reply_ne h), and_iff_right (not_changes_of_reply_ne h)]

/-- What is stored after a call was stored by it, or was there and the call did not change the alias. -/
theorem lookup_step_iff (call : Call) :
    (c.step call).1.entries.lookup keyAlias = some d ↔
      Stores keyAlias d (call, (c.step call).2) ∨
        ¬Changes keyAlias (call, (c.step call).2) ∧ c.entries.lookup keyAlias = some d := by
  cases call with
  | insert p =>
    rw [step]
    split
    · next built h => exact lookup_insert_iff h
    · exact lookup_iff_of_reply_ne nofun
  | remove removed =>
    rw [step]
    split
    · exact lookup_erase_iff
    · exact lookup_iff_of_reply_ne nofun
  | keyInfo wanted =>
    rw [step]
    split <;> exact lookup_iff_of_reply_ne nofun
  | _ => exact lookup_iff_of_reply_ne nofun

/-- What is stored after some calls was stored last by one of them, or it was there and no call changed the alias. -/
theorem lookup_run_iff (calls : List Call) :
    (c.run calls).1.entries.lookup keyAlias = some d ↔
      LastStored keyAlias d (calls.zip (c.run calls).2) ∨
        (∀ exchange ∈ calls.zip (c.run calls).2, ¬Changes keyAlias exchange) ∧
          c.entries.lookup keyAlias = some d := by
  induction calls generalizing c with
  | nil => simp [run, LastStored]
  | cons call rest ih =>
    -- The rest of the calls stores the descriptor, or leaves the alias as this call left it.
    rw [run_cons, List.zip_cons_cons, lastStored_cons_iff, List.forall_mem_cons, ih,
      lookup_step_iff]
    tauto

end Changes

end Catalog

end HardwareKeys

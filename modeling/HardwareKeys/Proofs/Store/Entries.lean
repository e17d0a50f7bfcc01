import HardwareKeys.Proofs.Store.Observers

/-!
# Entries

A store is its name and what stands under each alias. A call changes at most the entry of the alias that it names, and what it leaves there depends on nothing but what was there. So the entry of an alias after a run is worked out from the calls alone, without the rest of the store.
-/

namespace HardwareKeys.Store

theorem ext_entries {s t : Store} (hname : s.name = t.name)
    (h : ∀ keyAlias : String, s.entries[keyAlias]? = t.entries[keyAlias]?) : s = t := by
  obtain ⟨name, entries⟩ := s
  obtain ⟨other, others⟩ := t
  obtain rfl : name = other := hname
  congr 1
  exact Std.ExtTreeMap.ext_getElem? h

namespace Call

/-- The alias that a call names. -/
def keyAlias? : Call → Option String
  | .insert p => p.keyAlias
  | .remove keyAlias => some keyAlias
  | .keyInfo keyAlias => some keyAlias
  | .contains keyAlias => some keyAlias
  | _ => none

/-- A call that may change the entry of its alias. -/
inductive IsUpdate : Call → Prop where
  | insert (p : KeyParams) : IsUpdate (.insert p)
  | remove (keyAlias : String) : IsUpdate (.remove keyAlias)

/-- What the call leaves under the alias, where `entry` stood before it. -/
def leaves (keyAlias : String) (entry : Option KeyParams) : Call → Option KeyParams
  | .insert p => if p.keyAlias = some keyAlias then some p else entry
  | .remove removed => if removed = keyAlias then none else entry
  | _ => entry

/-- The call may change the entry of this alias. -/
def Touches (keyAlias : String) (call : Call) : Prop :=
  call.IsUpdate ∧ call.keyAlias? = some keyAlias

variable {keyAlias : String} {call : Call}

theorem leaves_of_not_touches (h : ¬call.Touches keyAlias) (entry : Option KeyParams) :
    call.leaves keyAlias entry = entry := by
  cases call with
  | insert p => exact if_neg fun halias => h ⟨.insert p, halias⟩
  | remove removed => exact if_neg fun heq => h ⟨.remove removed, congrArg some heq⟩
  | _ => rfl

/-- What an update leaves does not depend on what it finds. -/
theorem leaves_of_touches (h : call.Touches keyAlias) (entry other : Option KeyParams) :
    call.leaves keyAlias entry = call.leaves keyAlias other := by
  obtain ⟨⟨p⟩ | ⟨removed⟩, hnamed⟩ := h
  · have halias : p.keyAlias = some keyAlias := hnamed
    rw [leaves, leaves, if_pos halias, if_pos halias]
  · have heq : removed = keyAlias := Option.some.inj hnamed
    rw [leaves, leaves, if_pos heq, if_pos heq]

end Call

theorem name_step (s : Store) (call : Call) : (s.step call).value.1.name = s.name := by
  rcases s.step_cases call with hsame | ⟨p, keyAlias, -, -, hinsert⟩ | ⟨keyAlias, -, -, herase⟩
  · rw [hsame]
  · rw [hinsert]
  · rw [herase]

theorem getElem?_step (s : Store) (call : Call) (keyAlias : String) :
    (s.step call).value.1.entries[keyAlias]? = call.leaves keyAlias s.entries[keyAlias]? := by
  cases call with
  | insert p =>
    cases halias : p.keyAlias with
    | none =>
      rw [step_insert_of_noAlias halias]
      simp [Call.leaves, halias]
    | some stored =>
      rw [step, insert_of_alias halias]
      simp [settle, Call.leaves, halias, Std.ExtTreeMap.getElem?_insert]
  | remove removed =>
    by_cases hmem : removed ∈ s.entries
    · rw [step_remove_of_mem hmem]
      simp [Call.leaves, Std.ExtTreeMap.getElem?_erase]
    · rw [step_remove_of_notMem hmem, Call.leaves]
      split
      · next heq => exact heq ▸ Std.ExtTreeMap.getElem?_eq_none hmem
      · rfl
  | _ => rfl

theorem run_append (s : Store) (calls more : List Call) :
    (s.run (calls ++ more)).value =
      (((s.run calls).value.1.run more).value.1,
        (s.run calls).value.2 ++ ((s.run calls).value.1.run more).value.2) := by
  induction calls generalizing s with
  | nil => rfl
  | cons call calls ih => simp [run, ih]

theorem name_run (s : Store) (calls : List Call) : (s.run calls).value.1.name = s.name := by
  induction calls generalizing s with
  | nil => rfl
  | cons call calls ih => exact (ih _).trans (s.name_step call)

theorem getElem?_run (s : Store) (calls : List Call) (keyAlias : String) :
    (s.run calls).value.1.entries[keyAlias]? =
      calls.foldl (Call.leaves keyAlias) s.entries[keyAlias]? := by
  induction calls generalizing s with
  | nil => rfl
  | cons call calls ih =>
    rw [List.foldl_cons, ← getElem?_step]
    exact ih _

theorem name_after (name : String) (calls : List Call) : (after name calls).name = name :=
  name_run _ calls

theorem replies_append (name : String) (calls more : List Call) :
    replies name (calls ++ more) = replies name calls ++ ((after name calls).run more).value.2 := by
  rw [replies, run_append, replies, after]

theorem getElem?_after (name : String) (calls : List Call) (keyAlias : String) :
    (after name calls).entries[keyAlias]? = calls.foldl (Call.leaves keyAlias) none := by
  rw [after, getElem?_run]
  simp [create]

end HardwareKeys.Store

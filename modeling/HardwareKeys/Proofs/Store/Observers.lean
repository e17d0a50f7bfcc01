import Mathlib.Tactic.TFAE
import HardwareKeys.Proofs.Store.Refinement
import HardwareKeys.Proofs.Text.ByteOrder

/-!
# What a store tells of its aliases

Every entry stands under the alias that its own parameters carry. A fresh store has no entries, and every call keeps the property, so it holds after every sequence of calls. A look-up of a stored alias then cannot fail for want of an alias, and all that a store tells of its aliases agrees.
-/

namespace HardwareKeys.Store

section Calls

variable {s : Store} {p : KeyParams} {keyAlias : String}

theorem insert_of_alias (h : p.keyAlias = some keyAlias) :
    s.insert p = ⟨[.registering keyAlias s.name],
      .ok { s with entries := s.entries.insert keyAlias p }⟩ := by
  rw [insert, h]
  rfl

theorem insert_of_noAlias (h : p.keyAlias = none) :
    s.insert p = ⟨[], .error .missingAlias⟩ := by
  rw [insert, h]
  rfl

theorem keyInfo_of_entry (h : s.entries[keyAlias]? = some p) :
    s.keyInfo keyAlias = ⟨.resolving keyAlias s.name :: (Descriptor.build p).events,
      (Descriptor.build p).value⟩ := by
  rw [keyInfo, h]
  rfl

theorem keyInfo_of_noEntry (h : s.entries[keyAlias]? = none) :
    s.keyInfo keyAlias = ⟨[.resolving keyAlias s.name], .error (.keyNotFound keyAlias)⟩ := by
  rw [keyInfo, h]
  rfl

end Calls

/-- A call leaves the store as it was, or keeps parameters under their own alias, or erases an entry. -/
theorem step_cases (s : Store) (call : Call) :
    (s.step call).value.1 = s ∨
      (∃ p keyAlias, p.keyAlias = some keyAlias ∧ call = .insert p ∧
        (s.step call).value.1 = { s with entries := s.entries.insert keyAlias p }) ∨
      ∃ keyAlias, keyAlias ∈ s.entries ∧ call = .remove keyAlias ∧
        (s.step call).value.1 = { s with entries := s.entries.erase keyAlias } := by
  cases call with
  | insert p =>
    cases halias : p.keyAlias with
    | none =>
      left
      rw [step_insert_of_noAlias halias]
    | some keyAlias =>
      refine .inr (.inl ⟨p, keyAlias, halias, rfl, ?_⟩)
      rw [step, insert_of_alias halias]
      rfl
  | remove keyAlias =>
    by_cases hmem : keyAlias ∈ s.entries
    · refine .inr (.inr ⟨keyAlias, hmem, rfl, ?_⟩)
      rw [step_remove_of_mem hmem]
    · left
      rw [step_remove_of_notMem hmem]
  | _ => exact .inl rfl

/-! ### Entries under their own alias -/

/-- Every entry stands under the alias of its own parameters. -/
def Keyed (s : Store) : Prop :=
  ∀ (keyAlias : String) (p : KeyParams), s.entries[keyAlias]? = some p → p.keyAlias = some keyAlias

theorem keyed_create (name : String) : (create name).value.Keyed := by
  intro keyAlias p hentry
  simp [create] at hentry

namespace Keyed

variable {s : Store}

theorem step (h : s.Keyed) (call : Call) : (s.step call).value.1.Keyed := by
  rcases s.step_cases call with hsame | ⟨q, stored, halias, -, hinsert⟩ | ⟨erased, -, -, herase⟩
  · rw [hsame]
    exact h
  · rw [hinsert]
    intro keyAlias p hentry
    rw [Std.ExtTreeMap.getElem?_insert] at hentry
    split at hentry
    · next heq =>
      obtain rfl : stored = keyAlias := compare_eq_iff_eq.mp heq
      rw [← Option.some.inj hentry, halias]
    · exact h keyAlias p hentry
  · rw [herase]
    intro keyAlias p hentry
    rw [Std.ExtTreeMap.getElem?_erase] at hentry
    split at hentry
    · cases hentry
    · exact h keyAlias p hentry

theorem run (h : s.Keyed) (calls : List Call) : (s.run calls).value.1.Keyed := by
  induction calls generalizing s with
  | nil => exact h
  | cons call rest ih => exact ih (h.step call)

end Keyed

theorem keyed_after (name : String) (calls : List Call) : (after name calls).Keyed :=
  (keyed_create name).run calls

section Observers

variable {s : Store} {keyAlias : String}

theorem Keyed.keyInfo_of_mem (hkeyed : s.Keyed) (h : keyAlias ∈ s.entries) :
    ∃ d, (s.keyInfo keyAlias).value = .ok d ∧ d.keyAlias = keyAlias := by
  obtain ⟨p, hentry⟩ := Option.isSome_iff_exists.mp (Std.ExtTreeMap.mem_iff_isSome_getElem?.mp h)
  obtain ⟨d, hbuilt, hd, -⟩ := Descriptor.ofParams_of_alias (hkeyed keyAlias p hentry)
  exact ⟨d, by rw [keyInfo_of_entry hentry, Descriptor.value_build, hbuilt], hd⟩

theorem Keyed.keyInfo_isOk_iff (hkeyed : s.Keyed) :
    (∃ d, (s.keyInfo keyAlias).value = .ok d) ↔ keyAlias ∈ s.entries := by
  constructor
  · rintro ⟨d, hd⟩
    by_contra hmem
    rw [keyInfo_of_noEntry (Std.ExtTreeMap.getElem?_eq_none hmem)] at hd
    cases hd
  · intro hmem
    obtain ⟨d, hd, -⟩ := hkeyed.keyInfo_of_mem hmem
    exact ⟨d, hd⟩

theorem Keyed.keyInfo_ne_missingAlias (hkeyed : s.Keyed) :
    (s.keyInfo keyAlias).value ≠ .error .missingAlias := by
  by_cases hmem : keyAlias ∈ s.entries
  · obtain ⟨d, hd, -⟩ := hkeyed.keyInfo_of_mem hmem
    rw [hd]
    exact nofun
  · rw [keyInfo_of_noEntry (Std.ExtTreeMap.getElem?_eq_none hmem)]
    exact nofun

theorem contains_iff :
    (s.contains keyAlias).value = true ↔ ∃ d, (s.keyInfo keyAlias).value = .ok d := by
  rw [contains, Logged.value_bind, Logged.value_pure]
  cases (s.keyInfo keyAlias).value <;> simp [Except.isOk, Except.toBool]

theorem remove_isOk_iff : (∃ next, s.remove keyAlias = .ok next) ↔ keyAlias ∈ s.entries := by
  by_cases hmem : keyAlias ∈ s.entries <;> simp [remove, hmem]

theorem mem_aliases_iff : keyAlias ∈ s.aliases ↔ keyAlias ∈ s.entries :=
  Std.ExtTreeMap.mem_keys

theorem aliases_pairwise_lt (s : Store) : s.aliases.Pairwise (· < ·) :=
  s.entries.ordered_keys.imp compare_lt_iff_lt.mp

/-- The aliases are those of the entries, sorted, in whatever order they are listed. -/
theorem sort_eq_aliases {keys : List String} (hnodup : keys.Nodup)
    (hmem : ∀ keyAlias, keyAlias ∈ keys ↔ keyAlias ∈ s.entries) : keys.mergeSort = s.aliases := by
  have hle : keys.mergeSort.Pairwise (· ≤ ·) := List.pairwise_mergeSort' (· ≤ ·) keys
  have hne : keys.mergeSort.Nodup := (List.mergeSort_perm keys _).nodup_iff.mpr hnodup
  have hlt : keys.mergeSort.Pairwise (· < ·) := by
    refine (hle.and hne).imp fun h => ?_
    exact lt_of_le_of_ne h.1 h.2
  refine hlt.eq_of_mem_iff (aliases_pairwise_lt s) fun keyAlias => ?_
  rw [List.mem_mergeSort, hmem, mem_aliases_iff]

theorem isEmpty_iff : s.isEmpty = true ↔ s.aliases = [] := by
  rw [isEmpty, aliases, ← Std.ExtTreeMap.isEmpty_keys, List.isEmpty_iff]

end Observers

/-- After any calls, every entry stands under its own alias and no look-up fails for want of one. The aliases stand in strictly increasing order of their bytes and are what any listing of the entries is sorted to, the size counts them, and to be listed, to be contained, to be found and to be removable are the same. -/
theorem observers_agree (name : String) (calls : List Call) :
    (∀ (keyAlias : String) (p : KeyParams), (after name calls).entries[keyAlias]? = some p →
      p.keyAlias = some keyAlias) ∧
    (∀ keyAlias, ((after name calls).keyInfo keyAlias).value ≠ .error .missingAlias) ∧
    (after name calls).aliases.Pairwise (fun a b => Text.utf8Bytes a < Text.utf8Bytes b) ∧
    (∀ keys : List String, keys.Nodup →
      (∀ keyAlias, keyAlias ∈ keys ↔ keyAlias ∈ (after name calls).entries) →
      keys.mergeSort = (after name calls).aliases) ∧
    (after name calls).size = (after name calls).aliases.length ∧
    ((after name calls).isEmpty = true ↔ (after name calls).aliases = []) ∧
    (∀ keyAlias, List.TFAE [
      keyAlias ∈ (after name calls).aliases,
      ((after name calls).contains keyAlias).value = true,
      ∃ d, ((after name calls).keyInfo keyAlias).value = .ok d,
      ∃ next, (after name calls).remove keyAlias = .ok next]) ∧
    ∀ keyAlias d, ((after name calls).keyInfo keyAlias).value = .ok d → d.keyAlias = keyAlias := by
  have hkeyed := keyed_after name calls
  refine ⟨hkeyed, fun _ => hkeyed.keyInfo_ne_missingAlias,
    (aliases_pairwise_lt _).imp Text.utf8Bytes_lt, fun _ => sort_eq_aliases,
    Std.ExtTreeMap.length_keys.symm, isEmpty_iff, fun keyAlias => ?same,
    fun keyAlias d hd => ?own⟩
  case same =>
    rw [mem_aliases_iff, contains_iff, hkeyed.keyInfo_isOk_iff, remove_isOk_iff]
    tfae_finish
  case own =>
    obtain ⟨found, hfound, halias⟩ := hkeyed.keyInfo_of_mem (hkeyed.keyInfo_isOk_iff.mp ⟨d, hd⟩)
    rw [hfound] at hd
    rw [← Except.ok.inj hd, halias]

end HardwareKeys.Store

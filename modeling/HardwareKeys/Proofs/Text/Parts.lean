import Mathlib.Data.List.DropRight
import Mathlib.Data.List.Forall2
import HardwareKeys.Text.WhiteSpace

/-!
# Parts of a text

A separator cuts a text into parts, of which each is a core with white space around it. Both are said here without the functions that find them: the parts are what the separator joins to the text, and a core neither starts nor ends with white space.
-/

namespace HardwareKeys.Text

/-- White space, possibly none. -/
def IsWhite (s : List Char) : Prop := ∀ c ∈ s, isWhiteSpace c = true

instance (s : List Char) : Decidable (IsWhite s) :=
  decidable_of_iff (s.all isWhiteSpace = true) List.all_eq_true

/-- The core is what remains of `s` when the white space at its ends is taken off. -/
structure Trims (s core : List Char) : Prop where
  around : ∃ before after, IsWhite before ∧ IsWhite after ∧ s = before ++ (core ++ after)
  first : ∀ c ∈ core.head?, isWhiteSpace c = false
  last : ∀ c ∈ core.getLast?, isWhiteSpace c = false

theorem trimEnd_eq_rdropWhile (s : List Char) : trimEnd s = s.rdropWhile isWhiteSpace := rfl

theorem trimStart_append {s : List Char} (hs : ∀ c ∈ s.head?, isWhiteSpace c = false)
    (hnil : s ≠ []) (rest : List Char) : trimStart (s ++ rest) = s ++ rest := by
  obtain ⟨c, tail, rfl⟩ := List.exists_cons_of_ne_nil hnil
  have hc : isWhiteSpace c = false := hs c rfl
  simp [trimStart, hc]

theorem trimEnd_append {s white : List Char} (hs : ∀ c ∈ s.getLast?, isWhiteSpace c = false)
    (hwhite : IsWhite white) : trimEnd (s ++ white) = s := by
  have hreverse : ∀ c ∈ white.reverse, isWhiteSpace c = true := by
    simpa [IsWhite] using hwhite
  have hself : s.rdropWhile isWhiteSpace = s := by
    rw [List.rdropWhile_eq_self_iff]
    intro hnil
    rw [hs _ (List.getLast_mem_getLast? hnil)]
    exact Bool.false_ne_true
  rw [trimEnd, List.reverse_append, List.dropWhile_append_of_pos hreverse]
  exact hself

theorem trims_trim (s : List Char) : Trims s (trim s) where
  around := by
    refine ⟨s.takeWhile isWhiteSpace, (trimStart s).rtakeWhile isWhiteSpace,
      fun c hc => List.mem_takeWhile_imp hc, fun c hc => List.mem_rtakeWhile_imp hc, ?_⟩
    calc
      s = s.takeWhile isWhiteSpace ++ trimStart s := List.takeWhile_append_dropWhile.symm
      _ = _ := by rw [trim, trimEnd_eq_rdropWhile, List.rdropWhile_append_rtakeWhile]
  first := by
    intro c hc
    -- The core is a front of the text without its first white space.
    obtain ⟨after, hafter⟩ : trim s <+: trimStart s := List.rdropWhile_prefix _ _
    have hhead : (trimStart s).head? = some c := by
      rw [← hafter, List.head?_append, hc]
      rfl
    have hnot := List.head?_dropWhile_not isWhiteSpace s
    rw [← trimStart, hhead] at hnot
    exact hnot
  last := by
    intro c hc
    obtain ⟨hnil, rfl⟩ := List.mem_getLast?_eq_getLast hc
    exact Bool.eq_false_iff.mpr (List.rdropWhile_last_not _ _ hnil)

theorem Trims.trim_eq {s core : List Char} (h : Trims s core) : trim s = core := by
  obtain ⟨before, after, hbefore, hafter, rfl⟩ := h.around
  have hstart : trimStart (before ++ (core ++ after)) = trimStart (core ++ after) :=
    List.dropWhile_append_of_pos hbefore
  rw [trim, hstart]
  by_cases hnil : core = []
  · have hall : trimStart after = [] := List.dropWhile_eq_nil_iff.mpr hafter
    rw [hnil, List.nil_append, hall]
    rfl
  · rw [trimStart_append h.first hnil, trimEnd_append h.last hafter]

theorem trims_iff {s core : List Char} : Trims s core ↔ trim s = core := by
  constructor
  · exact Trims.trim_eq
  · rintro rfl
    exact trims_trim s

theorem trim_eq_nil_iff {s : List Char} : trim s = [] ↔ IsWhite s := by
  constructor
  · intro h
    obtain ⟨before, after, hbefore, hafter, hs⟩ := (trims_iff.mpr h).around
    rw [hs]
    simpa [IsWhite, or_imp, forall_and] using And.intro hbefore hafter
  · intro h
    exact trims_iff.mp ⟨⟨s, [], h, List.forall_mem_nil _, by simp⟩, nofun, nofun⟩

/-- The parts are what the separator joins to `s`. -/
structure Splits (separator : Char) (s : List Char) (parts : List (List Char)) : Prop where
  ne_nil : parts ≠ []
  notMem : ∀ part ∈ parts, separator ∉ part
  join : [separator].intercalate parts = s

theorem notMem_of_mem_splitOn {separator : Char} {s part : List Char}
    (h : part ∈ s.splitOn separator) : separator ∉ part := by
  induction s generalizing part with
  | nil =>
    rw [List.splitOn_nil, List.mem_singleton] at h
    simp [h]
  | cons c s ih =>
    obtain ⟨first, rest, hsplit⟩ := List.exists_cons_of_ne_nil (List.splitOn_ne_nil separator s)
    rw [List.splitOn_cons_eq_if_modifyHead] at h
    split at h
    · rcases List.mem_cons.mp h with rfl | h
      · exact List.not_mem_nil
      · exact ih h
    · next hc =>
      rw [hsplit] at h ih
      rcases List.mem_cons.mp h with rfl | h
      · have hne : c ≠ separator := by simpa using hc
        exact List.not_mem_cons_of_ne_of_not_mem hne.symm (ih List.mem_cons_self)
      · exact ih (List.mem_cons_of_mem _ h)

theorem splits_iff {separator : Char} {s : List Char} {parts : List (List Char)} :
    Splits separator s parts ↔ s.splitOn separator = parts := by
  constructor
  · rintro ⟨hnil, hnot, rfl⟩
    exact List.splitOn_intercalate separator hnot hnil
  · rintro rfl
    exact ⟨List.splitOn_ne_nil _ _, fun _ => notMem_of_mem_splitOn, List.intercalate_splitOn _⟩

/-- The cores of the parts of `s`. -/
def HasCores (separator : Char) (s : List Char) (cores : List (List Char)) : Prop :=
  ∃ parts, Splits separator s parts ∧ List.Forall₂ Trims parts cores

theorem hasCores_iff {separator : Char} {s : List Char} {cores : List (List Char)} :
    HasCores separator s cores ↔ (s.splitOn separator).map trim = cores := by
  have htrims : Trims = fun part core => trim part = core := by
    funext part core
    exact propext trims_iff
  have hmap : ∀ parts, List.Forall₂ Trims parts cores ↔ parts.map trim = cores := by
    intro parts
    rw [htrims, ← List.forall₂_map_left_iff (f := trim) (R := Eq), List.forall₂_eq_eq_eq]
  simp only [HasCores, splits_iff, hmap, exists_eq_left']

end HardwareKeys.Text

import HardwareKeys.Proofs.Purposes.Bits
import HardwareKeys.Proofs.Text.Parts

/-!
# Written purposes read back

No part of a written set holds white space or the bar between parts, so splitting and trimming give the parts back, and the parts make the set.
-/

namespace HardwareKeys.Purposes

/-- A text without blanks and bars, as the parts of a written set are. -/
def IsPart (s : List Char) : Prop := s ≠ [] ∧ ∀ c ∈ s, c ≠ '|' ∧ Text.isWhiteSpace c = false

theorem trims_of_isPart {s before after : List Char} (h : IsPart s)
    (hbefore : Text.IsWhite before) (hafter : Text.IsWhite after) :
    Text.Trims (before ++ (s ++ after)) s where
  around := ⟨before, after, hbefore, hafter, rfl⟩
  first c hc := (h.2 c (List.mem_of_head? hc)).2
  last c hc := (h.2 c (List.mem_of_getLast? hc)).2

theorem trim_ne_nil_of_isPart {s : List Char} (h : IsPart s) (rest : List Char) :
    Text.trim (s ++ rest) ≠ [] := by
  rw [ne_eq, Text.trim_eq_nil_iff]
  intro hwhite
  obtain ⟨c, hc⟩ := List.exists_mem_of_ne_nil s h.1
  have hblank := hwhite c (List.mem_append_left _ hc)
  rw [(h.2 c hc).2] at hblank
  cases hblank

theorem notMem_bar_of_isPart {s : List Char} (h : IsPart s) (before after : List Char)
    (hbefore : ∀ c ∈ before, c = ' ') (hafter : ∀ c ∈ after, c = ' ') :
    '|' ∉ before ++ (s ++ after) := by
  simp only [List.mem_append, not_or]
  refine ⟨fun hmem => ?_, fun hmem => (h.2 _ hmem).1 rfl, fun hmem => ?_⟩
  · exact absurd (hbefore _ hmem) (by decide)
  · exact absurd (hafter _ hmem) (by decide)

/-- Splitting at the bars and trimming undoes joining. -/
theorem map_trim_splitOn {part : List Char} {parts : List (List Char)}
    (h : ∀ s ∈ part :: parts, IsPart s) (before : List Char) (hbefore : ∀ c ∈ before, c = ' ') :
    ((before ++ separator.intercalate (part :: parts)).splitOn '|').map Text.trim =
      part :: parts := by
  have hblank : ∀ {blanks : List Char}, (∀ c ∈ blanks, c = ' ') → Text.IsWhite blanks := by
    intro blanks hblanks c hc
    rw [hblanks c hc]
    decide
  -- The blank behind a bar stays with the part after it, hence `before`.
  induction parts generalizing part before with
  | nil =>
    have hpart := h part List.mem_cons_self
    have hbar := notMem_bar_of_isPart hpart before [] hbefore (by simp)
    have htrim := (trims_of_isPart hpart (hblank hbefore) (List.forall_mem_nil _)).trim_eq
    rw [List.append_nil] at hbar htrim
    rw [List.intercalate_singleton, List.splitOn_eq_singleton hbar, List.map_singleton, htrim]
  | cons next parts ih =>
    have hpart := h part List.mem_cons_self
    have hspace : ∀ c ∈ [' '], c = ' ' := by simp
    have hbar := notMem_bar_of_isPart hpart before [' '] hbefore hspace
    have hsplit : before ++ separator.intercalate (part :: next :: parts) =
        (before ++ (part ++ [' '])) ++ '|' :: ([' '] ++ separator.intercalate (next :: parts)) := by
      simp [separator]
    rw [hsplit, List.splitOn_append_cons_self_of_not_mem hbar, List.map_cons,
      (trims_of_isPart hpart (hblank hbefore) (hblank hspace)).trim_eq,
      ih (fun s hs => h s (List.mem_cons_of_mem _ hs)) [' '] hspace]

theorem exists_intercalate_cons_eq_append (part : List Char) (parts : List (List Char)) :
    ∃ tail, separator.intercalate (part :: parts) = part ++ tail := by
  cases parts with
  | nil => exact ⟨[], by simp⟩
  | cons next parts => exact ⟨separator ++ separator.intercalate (next :: parts), by simp⟩

theorem isPart_of_all {s : List Char} (hnil : s ≠ [])
    (h : (s.all fun c => c ≠ '|' && !Text.isWhiteSpace c) = true) : IsPart s := by
  refine ⟨hnil, fun c hc => ?_⟩
  simpa using List.all_eq_true.mp h c hc

theorem isPart_name (purpose : Purpose) : IsPart purpose.name.toList := by
  cases purpose <;> exact isPart_of_all (by decide) (by decide)

theorem readPart_name (purpose : Purpose) :
    readPart purpose.name.toList = .ok (single purpose) := by
  cases purpose <;> rfl

theorem mem_hexDigits {n : Nat} {c : Char} (h : c ∈ Text.hexDigits n) :
    ∃ d < 16, c = Nat.digitChar d := by
  induction n using Nat.strongRecOn with
  | _ n ih =>
    by_cases hn : n < 16
    · rw [Text.hexDigits, Nat.toDigits_of_lt_base hn, List.mem_singleton] at h
      exact ⟨n, hn, h⟩
    · rw [Text.hexDigits, Nat.toDigits_of_base_le (by decide) (Nat.le_of_not_lt hn),
        List.mem_append, List.mem_singleton] at h
      rcases h with hfront | hlast
      · exact ih (n / 16) (Nat.div_lt_self (by omega) (by decide)) hfront
      · exact ⟨n % 16, Nat.mod_lt n (by decide), hlast⟩

theorem digitChar_ne_bar {d : Nat} (h : d < 16) : d.digitChar ≠ '|' := by
  decide +revert

theorem digitChar_ne_plus {d : Nat} (h : d < 16) : d.digitChar ≠ '+' := by
  decide +revert

theorem isWhiteSpace_digitChar {d : Nat} (h : d < 16) :
    Text.isWhiteSpace d.digitChar = false := by
  decide +revert

theorem isPart_hexText (p : Purposes) : IsPart p.hexText := by
  constructor
  · rw [hexText]
    exact List.cons_ne_nil _ _
  · rw [hexText, List.forall_mem_cons, List.forall_mem_cons]
    refine ⟨⟨by decide, by decide⟩, ⟨by decide, by decide⟩, ?_⟩
    intro c hc
    obtain ⟨d, hd, rfl⟩ := mem_hexDigits hc
    exact ⟨digitChar_ne_bar hd, isWhiteSpace_digitChar hd⟩

theorem withoutPlus_hexDigits (n : Nat) :
    withoutPlus (Text.hexDigits n) = Text.hexDigits n := by
  unfold withoutPlus
  split
  · next s hs =>
    obtain ⟨d, hd, heq⟩ := mem_hexDigits (n := n) (c := '+') (by simp [hs])
    exact absurd heq.symm (digitChar_ne_plus hd)
  · rfl

theorem readBits_hexDigits (bits : UInt32) :
    readBits (Text.hexDigits bits.toNat) = some bits := by
  rw [readBits, withoutPlus_hexDigits, Text.readHex_hexDigits, Option.bind_eq_bind,
    Option.bind_some, word32?_eq_some_iff]

theorem readPart_of_readBits {digits : List Char} {bits : UInt32}
    (h : readBits digits = some bits) : readPart ('0' :: 'x' :: digits) = .ok ⟨bits⟩ := by
  rw [readPart, h]
  rfl

theorem readPart_hexText (p : Purposes) : readPart p.hexText = .ok p :=
  readPart_of_readBits (readBits_hexDigits p.bits)

theorem isPart_of_mem_partTexts {p : Purposes} {s : List Char} (h : s ∈ p.partTexts) :
    IsPart s := by
  rw [partTexts, List.mem_append, List.mem_map] at h
  rcases h with ⟨purpose, -, rfl⟩ | h
  · exact isPart_name purpose
  · split at h
    · cases h
    · rw [List.mem_singleton.mp h]
      exact isPart_hexText _

theorem readParts_append (p : Purposes) (front back : List (List Char)) :
    readParts p (front ++ back) = readParts p front >>= fun q => readParts q back := by
  induction front generalizing p with
  | nil => rfl
  | cons part front ih =>
    simp only [List.cons_append, readParts, bind_assoc]
    exact bind_congr fun q => ih _

/-- What is read one by one is read together as the union. -/
theorem readParts_map {α : Type} {written : α → List Char} {value : α → Purposes}
    (h : ∀ a, readPart (written a) = .ok (value a)) (p : Purposes) (list : List α) :
    readParts p (list.map written) = .ok ((list.map value).foldl union p) := by
  induction list generalizing p with
  | nil => rfl
  | cons a list ih =>
    simp only [List.map_cons, List.foldl_cons, ← ih]
    rw [readParts, h]
    rfl

/-- Names before hexadecimal numbers, as in every written set. -/
theorem readParts_names_append (names : List Purpose) (rest : List Purposes) :
    readParts empty (names.map (·.name.toList) ++ rest.map hexText) =
      .ok ((names.map single ++ rest).foldl union empty) := by
  rw [readParts_append, readParts_map readPart_name, List.foldl_append]
  exact (readParts_map readPart_hexText _ rest).trans (by rw [List.map_id'])

theorem readParts_partTexts (p : Purposes) : readParts empty p.partTexts = .ok p := by
  have htexts : p.partTexts = p.toList.map (·.name.toList) ++
      (if p.unnamed.isEmpty then [] else [p.unnamed]).map hexText := by
    rw [partTexts]
    split <;> rfl
  calc
    readParts empty p.partTexts = .ok (p.parts.foldl union empty) := by
      rw [htexts, readParts_names_append, parts]
    _ = .ok p := by rw [foldl_union_parts]

/-- Parts that are joined are read one after the other. -/
theorem ofText_intercalate {parts : List (List Char)} (h : ∀ s ∈ parts, IsPart s) :
    ofText (separator.intercalate parts) = readParts empty parts := by
  cases parts with
  | nil =>
    rw [List.intercalate_nil]
    rfl
  | cons part parts =>
    have hsplit := map_trim_splitOn h [] (by simp)
    rw [List.nil_append] at hsplit
    have hnonblank : Text.trim (separator.intercalate (part :: parts)) ≠ [] := by
      obtain ⟨tail, htail⟩ := exists_intercalate_cons_eq_append part parts
      rw [htail]
      exact trim_ne_nil_of_isPart (h part List.mem_cons_self) tail
    rw [ofText, if_neg hnonblank, hsplit]

/-- A written set is read back with all its bits. -/
theorem ofText_text (p : Purposes) : ofText p.text = .ok p := by
  rw [text, ofText_intercalate fun s => isPart_of_mem_partTexts, readParts_partTexts]

end HardwareKeys.Purposes

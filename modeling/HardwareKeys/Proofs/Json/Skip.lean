import HardwareKeys.Proofs.Json.Grammar

/-!
# Skipped values

A value by the grammar is skipped to its last character, whatever its numbers, escapes and nesting. The induction is on the value, with any brackets open around it: past the value, the skipper goes on as it does after any value inside those brackets.
-/

namespace HardwareKeys.Json

theorem skipEscape_letter {letter : Char} (h : (escaped? letter).isSome) (rest : List Char) :
    skipEscape (letter :: rest) = .ok rest := by
  unfold skipEscape
  split
  · next heq => cases heq
  · next heq =>
    obtain ⟨rfl, -⟩ := List.cons.inj heq
    simp [escaped?_u] at h
  · next heq =>
    obtain ⟨rfl, rfl⟩ := List.cons.inj heq
    simp [h, pure, Except.pure]

theorem skipEscape_unit {digits : List Char} {unit : Nat} (h : SpellsUnit digits unit)
    (rest : List Char) : skipEscape ('u' :: (digits ++ rest)) = .ok rest := by
  simp [skipEscape, h.readUnit_append, bind, Except.bind, pure, Except.pure]

theorem exists_of_skipEscape {s rest : List Char} (h : skipEscape s = .ok rest) :
    ∃ form, IsForm ('\\' :: form) ∧ s = form ++ rest := by
  unfold skipEscape at h
  split at h
  · cases h
  · obtain ⟨⟨unit, tail⟩, hunit, h⟩ := bind_eq_ok_iff.mp h
    cases h
    obtain ⟨digits, hdigits, rfl⟩ := readUnit_eq_ok_iff.mp hunit
    exact ⟨_, .unit hdigits, rfl⟩
  · split at h
    · next hletter =>
      cases h
      exact ⟨_, .escape hletter, rfl⟩
    · cases h

theorem skipChars_escape {s rest : List Char} (h : skipEscape s = .ok rest) :
    skipChars ('\\' :: s) = skipChars rest := by
  rw [skipChars]
  simp only [show ('\\' : Char) ≠ '"' by decide, ↓reduceIte]
  split
  · simp_all
  · next heq =>
    rw [h] at heq
    cases heq
    rfl

theorem skipChars_form {form : List Char} (h : IsForm form) (rest : List Char) :
    skipChars (form ++ rest) = skipChars rest := by
  cases h with
  | plain h =>
    rw [List.singleton_append, skipChars]
    simp [h.notQuote, h.notBackslash, h.notControl]
  | escape h => exact skipChars_escape (skipEscape_letter h rest)
  | unit h => exact skipChars_escape (skipEscape_unit h rest)

theorem IsBody.skipChars_append {s : List Char} (h : IsBody s) (rest : List Char) :
    skipChars (s ++ '"' :: rest) = .ok rest := by
  induction h with
  | nil => simp [skipChars]
  | cons hform _ ih => rw [List.append_assoc, skipChars_form hform, ih]

/-- Texts are skipped by the grammar. -/
theorem skipChars_eq_ok_iff {s rest : List Char} :
    skipChars s = .ok rest ↔ ∃ body, IsBody body ∧ s = body ++ '"' :: rest := by
  constructor
  · intro h
    fun_induction skipChars s generalizing rest with
    | case1 => cases h
    | case2 =>
      cases h
      exact ⟨[], .nil, rfl⟩
    | case3 => cases h
    | case4 _ _ hescape _ ih =>
      obtain ⟨form, hform, rfl⟩ := exists_of_skipEscape hescape
      obtain ⟨body, hbody, rfl⟩ := ih h
      exact ⟨_, .cons hform hbody, by simp⟩
    | case5 => cases h
    | case6 c tail hquote hbackslash hcontrol ih =>
      obtain ⟨body, hbody, rfl⟩ := ih h
      exact ⟨_, .cons (.plain ⟨hquote, hbackslash, by simpa using hcontrol⟩) hbody, rfl⟩
  · rintro ⟨body, hbody, rfl⟩
    exact hbody.skipChars_append rest

theorem skipNumber_append {n : Numeral} {s rest : List Char} (h : n.Spells s)
    (hrest : EndsNumber rest) : skipNumber (s ++ rest) = .ok rest := by
  simp [skipNumber, Numeral.scan_append h hrest, mapError_ok, bind, Except.bind, pure, Except.pure]

theorem expectColon_append (blanks : Blanks) (rest : List Char) :
    expectColon (blanks.text ++ ':' :: rest) = .ok rest := by
  simp [expectColon, skipBlanks_cons, isBlank]

theorem skipKey_append {m : Member} (hkey : IsBody m.key) (rest : List Char) :
    skipKey (m.text ++ rest) = .ok (m.item.text ++ rest) := by
  simp [Member.text, Member.body, skipKey, skipBlanks_cons, isBlank, hkey.skipChars_append, bind, Except.bind,
    expectColon_append]

theorem ne_of_startsNumber {c other : Char} (h : Numeral.startsNumber c = true)
    (hother : Numeral.startsNumber other = false) : c ≠ other := by
  rintro rfl
  simp [h] at hother

theorem skipScalar_of_startsNumber {c : Char} (h : Numeral.startsNumber c = true) (s : List Char) :
    skipScalar (c :: s) = skipNumber (c :: s) := by
  unfold skipScalar
  split
  · next heq => exact absurd (List.cons.inj heq).1 (ne_of_startsNumber h (by decide))
  · next heq => exact absurd (List.cons.inj heq).1 (ne_of_startsNumber h (by decide))
  · next heq => exact absurd (List.cons.inj heq).1 (ne_of_startsNumber h (by decide))
  · next heq => exact absurd (List.cons.inj heq).1 (ne_of_startsNumber h (by decide))
  · next heq =>
    obtain ⟨rfl, rfl⟩ := List.cons.inj heq
    exact if_pos h
  · next heq => cases heq

theorem openValue_scalar {c : Char} {s tail rest : List Char} (hs : skipBlanks s = c :: tail)
    (harray : c ≠ '[') (hobject : c ≠ '\x7b') (h : skipScalar (c :: tail) = .ok rest) :
    openValue s = .ok (none, rest) := by
  unfold openValue
  rw [hs]
  split
  · next heq => exact absurd (List.cons.inj heq).1 harray
  · next heq => exact absurd (List.cons.inj heq).1 hobject
  · simp [h, bind, Except.bind, pure, Except.pure]

theorem openValue_number {n : Numeral} {s rest : List Char} (h : n.Spells s)
    (hrest : EndsNumber rest) : openValue (s ++ rest) = .ok (none, rest) := by
  have hskip := skipNumber_append h hrest
  obtain ⟨c, tail, rfl, hc⟩ := h.eq_cons
  have hblanks := (startsItem_of_startsNumber hc tail).skipBlanks_append rest
  exact openValue_scalar hblanks (ne_of_startsNumber hc (by decide))
    (ne_of_startsNumber hc (by decide)) ((skipScalar_of_startsNumber hc _).trans hskip)

theorem openValue_blanks (blanks : Blanks) (s : List Char) :
    openValue (blanks.text ++ s) = openValue s := by
  rw [openValue, blanks.skipBlanks_append, openValue]

theorem openValue_emptyArray (blanks : Blanks) (rest : List Char) :
    openValue ('[' :: (blanks.text ++ ']' :: rest)) = .ok (none, rest) := by
  simp [openValue, skipBlanks_cons, isBlank, pure, Except.pure]

theorem openValue_emptyObject (blanks : Blanks) (rest : List Char) :
    openValue ('\x7b' :: (blanks.text ++ '\x7d' :: rest)) = .ok (none, rest) := by
  simp [openValue, skipBlanks_cons, isBlank, pure, Except.pure]

theorem openValue_array {item : Item} (h : StartsItem item.value) (rest : List Char) :
    openValue ('[' :: (item.text ++ rest)) =
      .ok (some .array, item.value ++ (item.after.text ++ rest)) := by
  obtain ⟨c, tail, hvalue, hblank, hc⟩ := h
  simp [openValue, Item.text, hvalue, skipBlanks_cons hblank, skipBlanks_cons, isBlank, hc, pure,
    Except.pure]

theorem openValue_object {m : Member} (hkey : IsBody m.key) (rest : List Char) :
    openValue ('\x7b' :: (m.text ++ rest)) = .ok (some .object, m.item.text ++ rest) := by
  have hskip := skipKey_append (m := { m with before := .none }) hkey rest
  simp only [Member.text, Member.body, Blanks.none, List.nil_append, List.cons_append,
    List.append_assoc] at hskip
  simp [openValue, Member.text, Member.body, skipBlanks_cons, isBlank, hskip, bind, Except.bind, pure,
    Except.pure]

/-! ### Frames -/

/-- What is left after everything that follows a value inside the open frames. -/
def resume (frames : List Frame) (s : List Char) : Except ReadError (List Char) := do
  match ← closeFrames frames s with
  | ([], rest) => pure rest
  | (frame :: frames, rest) => skipFrom (frame :: frames) rest

theorem skipFrom_of_error {frames : List Frame} {s : List Char} {e : ReadError}
    (h : openValue s = .error e) : skipFrom frames s = .error e := by
  rw [skipFrom]
  split <;> simp_all

theorem skipFrom_of_open {frames : List Frame} {s rest : List Char} {frame : Frame}
    (h : openValue s = .ok (some frame, rest)) :
    skipFrom frames s = skipFrom (frame :: frames) rest := by
  rw [skipFrom]
  split <;> simp_all

theorem skipFrom_of_whole {frames : List Frame} {s rest : List Char}
    (h : openValue s = .ok (none, rest)) : skipFrom frames s = resume frames rest := by
  rw [skipFrom]
  split
  · simp_all
  · simp_all
  · next heq =>
    rw [h] at heq
    cases heq
    unfold resume
    split <;> next hclose => simp [hclose, bind, Except.bind, pure, Except.pure]

theorem skipFrom_blanks (frames : List Frame) (blanks : Blanks) (s : List Char) :
    skipFrom frames (blanks.text ++ s) = skipFrom frames s := by
  have hblanks := openValue_blanks blanks s
  cases hopen : openValue s with
  | error e => rw [skipFrom_of_error (hblanks.trans hopen), skipFrom_of_error hopen]
  | ok result =>
    obtain ⟨frame, rest⟩ := result
    cases frame with
    | none => rw [skipFrom_of_whole (hblanks.trans hopen), skipFrom_of_whole hopen]
    | some frame => rw [skipFrom_of_open (hblanks.trans hopen), skipFrom_of_open hopen]

theorem skipFrom_item (frames : List Frame) (item : Item) (rest : List Char) :
    skipFrom frames (item.text ++ rest) =
      skipFrom frames (item.value ++ (item.after.text ++ rest)) := by
  simp only [Item.text, List.append_assoc, skipFrom_blanks]

theorem closeFrames_blanks (frame : Frame) (frames : List Frame) (blanks : Blanks)
    (s : List Char) :
    closeFrames (frame :: frames) (blanks.text ++ s) = closeFrames (frame :: frames) s := by
  cases frame <;> simp only [closeFrames, blanks.skipBlanks_append]

theorem resume_blanks (frame : Frame) (frames : List Frame) (blanks : Blanks) (s : List Char) :
    resume (frame :: frames) (blanks.text ++ s) = resume (frame :: frames) s := by
  rw [resume, closeFrames_blanks, resume]

theorem resume_array_close (frames : List Frame) (rest : List Char) :
    resume (.array :: frames) (']' :: rest) = resume frames rest := rfl

theorem resume_object_close (frames : List Frame) (rest : List Char) :
    resume (.object :: frames) ('\x7d' :: rest) = resume frames rest := rfl

theorem resume_array_comma (frames : List Frame) (rest : List Char) :
    resume (.array :: frames) (',' :: rest) = skipFrom (.array :: frames) rest := rfl

theorem resume_object_comma (frames : List Frame) {m : Member} (hkey : IsBody m.key)
    (rest : List Char) :
    resume (.object :: frames) (',' :: (m.text ++ rest)) =
      skipFrom (.object :: frames) (m.item.text ++ rest) := by
  simp [resume, closeFrames, skipBlanks_cons, isBlank, skipKey_append hkey, bind, Except.bind, pure, Except.pure]

/-- Past `s`, the skipper goes on as after any value. -/
def Skips (s : List Char) : Prop :=
  ∀ frames rest, EndsNumber rest → skipFrom frames (s ++ rest) = resume frames rest

theorem Skips.item {item : Item} (h : Skips item.value) (frame : Frame) (frames : List Frame)
    {rest : List Char} (hrest : EndsNumber rest) :
    skipFrom (frame :: frames) (item.text ++ rest) = resume (frame :: frames) rest := by
  rw [skipFrom_item, h _ _ (item.after.endsNumber_append hrest), resume_blanks]

theorem resume_items {items : List Item} (h : ∀ item ∈ items, Skips item.value)
    (frames : List Frame) (rest : List Char) :
    resume (.array :: frames) ((items.map Item.text).flatMap (',' :: ·) ++ ']' :: rest) =
      resume frames rest := by
  induction items with
  | nil => exact resume_array_close frames rest
  | cons item items ih =>
    obtain ⟨hitem, hitems⟩ := List.forall_mem_cons.mp h
    have hends := Reader.endsNumber_flatMap_comma (items.map Item.text) rest
      (show continuesNumber ']' = false by decide)
    rw [List.map_cons, List.flatMap_cons, List.append_assoc, List.cons_append, resume_array_comma,
      hitem.item _ _ hends, ih hitems]

theorem resume_members {members : List Member} (hkeys : ∀ m ∈ members, IsBody m.key)
    (hvalues : ∀ m ∈ members, Skips m.item.value) (frames : List Frame) (rest : List Char) :
    resume (.object :: frames) ((members.map Member.text).flatMap (',' :: ·) ++ '\x7d' :: rest) =
      resume frames rest := by
  induction members with
  | nil => exact resume_object_close frames rest
  | cons m members ih =>
    obtain ⟨hkey, hkeys⟩ := List.forall_mem_cons.mp hkeys
    obtain ⟨hvalue, hvalues⟩ := List.forall_mem_cons.mp hvalues
    have hends := Reader.endsNumber_flatMap_comma (members.map Member.text) rest
      (show continuesNumber '\x7d' = false by decide)
    rw [List.map_cons, List.flatMap_cons, List.append_assoc, List.cons_append,
      resume_object_comma _ hkey, hvalue.item _ _ hends, ih hkeys hvalues]

theorem IsValue.skips {s : List Char} (h : IsValue s) : Skips s := by
  -- The open brackets are general, so the values inside an array or object skip with one more.
  induction h with
  | null => exact fun _ _ _ => skipFrom_of_whole rfl
  | boolean value =>
    cases value with
    | false => exact fun _ _ _ => skipFrom_of_whole rfl
    | true => exact fun _ _ _ => skipFrom_of_whole rfl
  | number h => exact fun _ _ hrest => skipFrom_of_whole (openValue_number h hrest)
  | text h =>
    intro frames rest _
    have hskip : skipScalar ('"' :: (_ ++ '"' :: rest)) = .ok rest := h.skipChars_append rest
    have hblanks := skipBlanks_cons (show isBlank '"' = false by decide)
    simp only [List.cons_append, List.append_assoc, List.nil_append]
    exact skipFrom_of_whole (openValue_scalar (hblanks _) (by decide) (by decide) hskip)
  | emptyArray blanks =>
    intro frames rest _
    simp only [List.cons_append, List.append_assoc, List.nil_append]
    exact skipFrom_of_whole (openValue_emptyArray blanks rest)
  | @array item items hitem _ ih ihs =>
    intro frames rest _
    have hends := Reader.endsNumber_flatMap_comma (items.map Item.text) rest
      (show continuesNumber ']' = false by decide)
    simp only [writeArray, List.map_cons, intercalate_comma_cons, List.cons_append,
      List.append_assoc, List.nil_append]
    rw [skipFrom_of_open (openValue_array hitem.startsItem _),
      ih _ _ (item.after.endsNumber_append hends), resume_blanks, resume_items ihs]
  | emptyObject blanks =>
    intro frames rest _
    simp only [List.cons_append, List.append_assoc, List.nil_append]
    exact skipFrom_of_whole (openValue_emptyObject blanks rest)
  | @object m members hkey _ hkeys _ ih ihs =>
    intro frames rest _
    have hends := Reader.endsNumber_flatMap_comma (members.map Member.text) rest
      (show continuesNumber '\x7d' = false by decide)
    simp only [writeObject, List.map_cons, intercalate_comma_cons, List.cons_append,
      List.append_assoc, List.nil_append]
    rw [skipFrom_of_open (openValue_object hkey _), ih.item _ _ hends, resume_members hkeys ihs]

/-- A value by the grammar is skipped with the blanks before it, and nothing else is. -/
theorem skipValue_item {item : Item} (h : IsValue item.value) {rest : List Char}
    (hrest : EndsNumber rest) : skipValue (item.text ++ rest) = .ok (item.after.text ++ rest) := by
  rw [skipValue, skipFrom_item, h.skips _ _ (item.after.endsNumber_append hrest)]
  rfl

end HardwareKeys.Json

import HardwareKeys.Proofs.Json.Skip

/-!
# Reading inside a longer text

What a reader takes does not depend on what surrounds it: blanks before the value are passed over, and text after it is left. Only a number could go on into the text after it, so that text must not continue one. This holds for whatever text a reader accepts, not only for what is written.
-/

namespace HardwareKeys.Json

variable {ε α β : Type}

/-- Text added behind is left over with the rest. -/
def Takes (p : List Char → Except ε (α × List Char)) : Prop :=
  ∀ {s a rest}, p s = .ok (a, rest) → ∀ {more}, EndsNumber more →
    p (s ++ more) = .ok (a, rest ++ more)

/-- `Takes` for what reads no value. -/
def Passes (p : List Char → Except ε (List Char)) : Prop :=
  ∀ {s rest}, p s = .ok rest → ∀ {more}, EndsNumber more → p (s ++ more) = .ok (rest ++ more)

theorem skipBlanks_append_of_cons {s tail : List Char} {c : Char} (h : skipBlanks s = c :: tail)
    (more : List Char) : skipBlanks (s ++ more) = c :: (tail ++ more) := by
  rw [skipBlanks] at h
  simp [skipBlanks, List.dropWhile_append, h]

namespace Numeral

theorem takes_scanDigits : Takes scanDigits := by
  intro s digits rest h more hmore
  obtain ⟨hdigits, hrest, rfl⟩ := scanDigits_eq_ok_iff.mp h
  rw [List.append_assoc]
  exact scanDigits_append hdigits (hrest.append (endsDigits_of_endsNumber hmore))

theorem takes_scanWhole : Takes scanWhole := by
  intro s digits rest h more hmore
  obtain ⟨hdigits, hrest, rfl⟩ := scanWhole_eq_ok_iff.mp h
  rw [List.append_assoc]
  exact scanWhole_append hdigits (hrest.append (endsDigits_of_endsNumber hmore))

theorem takes_scanFraction : Takes scanFraction := by
  intro s fraction rest h more hmore
  cases s with
  | nil =>
    cases h
    exact scanFraction_of_endsNumber hmore
  | cons c s =>
    by_cases hc : c = '.'
    · subst hc
      obtain ⟨⟨digits, tail⟩, hdigits, h⟩ := bind_eq_ok_iff.mp h
      cases h
      exact bind_eq_ok_iff.mpr ⟨_, takes_scanDigits hdigits hmore, rfl⟩
    · have hnone : ∀ t, scanFraction (c :: t) = .ok (none, c :: t) := by
        intro t
        simp [scanFraction, hc, pure, Except.pure]
      rw [hnone] at h
      cases h
      exact hnone _

/-- A sign is told from the digits after it, so only a text that ends at the sign could change. -/
theorem scanSign_append_of_ne_nil {s : List Char} (h : (scanSign s).2 ≠ []) (more : List Char) :
    scanSign (s ++ more) = ((scanSign s).1, (scanSign s).2 ++ more) := by
  cases s with
  | nil => exact absurd rfl h
  | cons c s =>
    by_cases hminus : c = '-'
    · subst hminus
      rfl
    · by_cases hplus : c = '+'
      · subst hplus
        rfl
      · simp [scanSign, hminus, hplus]

theorem takes_scanExponent : Takes scanExponent := by
  intro s exponent rest h more hmore
  cases s with
  | nil =>
    cases h
    exact scanExponent_of_endsNumber hmore
  | cons c s =>
    rw [List.cons_append]
    simp only [scanExponent] at h ⊢
    split at h
    · next hmark =>
      obtain ⟨⟨digits, tail⟩, hdigits, h⟩ := bind_eq_ok_iff.mp h
      cases h
      have hne : (scanSign s).2 ≠ [] := by
        intro hnil
        rw [hnil] at hdigits
        cases hdigits
      rw [if_pos hmark, scanSign_append_of_ne_nil hne]
      exact bind_eq_ok_iff.mpr ⟨_, takes_scanDigits hdigits hmore, rfl⟩
    · next hmark =>
      cases h
      rw [if_neg hmark]
      rfl

theorem scanMinus_append_of_ne_nil {s : List Char} (h : (scanMinus s).2 ≠ []) (more : List Char) :
    scanMinus (s ++ more) = ((scanMinus s).1, (scanMinus s).2 ++ more) := by
  cases s with
  | nil => exact absurd rfl h
  | cons c s =>
    by_cases hminus : c = '-'
    · subst hminus
      rfl
    · simp [scanMinus, hminus]

theorem takes_scan : Takes scan := by
  intro s n rest h more hmore
  obtain ⟨⟨whole, afterWhole⟩, hwhole, h⟩ := bind_eq_ok_iff.mp h
  obtain ⟨⟨fraction, afterFraction⟩, hfraction, h⟩ := bind_eq_ok_iff.mp h
  obtain ⟨⟨exponent, afterExponent⟩, hexponent, h⟩ := bind_eq_ok_iff.mp h
  cases h
  have hne : (scanMinus s).2 ≠ [] := by
    intro hnil
    rw [hnil] at hwhole
    cases hwhole
  unfold scan
  rw [scanMinus_append_of_ne_nil hne]
  refine bind_eq_ok_iff.mpr ⟨_, takes_scanWhole hwhole hmore, ?_⟩
  refine bind_eq_ok_iff.mpr ⟨_, takes_scanFraction hfraction hmore, ?_⟩
  exact bind_eq_ok_iff.mpr ⟨_, takes_scanExponent hexponent hmore, rfl⟩

end Numeral

theorem takes_readNumber : Takes readNumber := by
  intro s number rest h more hmore
  obtain ⟨⟨numeral, tail⟩, hscan, h⟩ := bind_eq_ok_iff.mp h
  obtain ⟨number, hnumber, h⟩ := bind_eq_ok_iff.mp h
  cases h
  have hscan := Numeral.takes_scan (mapError_eq_ok_iff.mp hscan) hmore
  refine bind_eq_ok_iff.mpr ⟨_, mapError_eq_ok_iff.mpr hscan, ?_⟩
  exact bind_eq_ok_iff.mpr ⟨number, hnumber, rfl⟩

theorem passes_expectLetters (letters : List Char) : Passes (expectLetters letters) := by
  induction letters with
  | nil =>
    intro s rest h more _
    cases h
    rfl
  | cons letter letters ih =>
    intro s rest h more hmore
    cases s with
    | nil => cases h
    | cons c s =>
      rw [List.cons_append]
      unfold expectLetters at h ⊢
      split at h
      · next hc =>
        rw [if_pos hc]
        exact ih h hmore
      · cases h

theorem takes_keyword (letters : List Char) (a : α) :
    Takes (fun s => do
      let rest ← expectLetters letters s
      pure (a, rest)) := by
  intro s value rest h more hmore
  obtain ⟨tail, hletters, h⟩ := bind_eq_ok_iff.mp h
  cases h
  exact bind_eq_ok_iff.mpr ⟨_, passes_expectLetters letters hletters hmore, rfl⟩

theorem passes_expectColon : Passes expectColon := by
  intro s rest h more _
  unfold expectColon at h ⊢
  split at h
  · cases h
  · next hs =>
    cases h
    rw [skipBlanks_append_of_cons hs]
    rfl
  · cases h

theorem takes_readChars : Takes readChars := by
  intro s chars rest h more _
  obtain ⟨body, hbody, rfl⟩ := readChars_eq_ok_iff.mp h
  exact readChars_eq_ok_iff.mpr ⟨body, hbody, by simp⟩

theorem passes_skipChars : Passes skipChars := by
  intro s rest h more _
  obtain ⟨body, hbody, rfl⟩ := skipChars_eq_ok_iff.mp h
  exact skipChars_eq_ok_iff.mpr ⟨body, hbody, by simp⟩

/-! ### Skipped values -/

theorem passes_skipNumber : Passes skipNumber := by
  intro s rest h more hmore
  obtain ⟨⟨numeral, tail⟩, hscan, h⟩ := bind_eq_ok_iff.mp h
  cases h
  have hscan := Numeral.takes_scan (mapError_eq_ok_iff.mp hscan) hmore
  exact bind_eq_ok_iff.mpr ⟨_, mapError_eq_ok_iff.mpr hscan, rfl⟩

theorem passes_skipKey : Passes skipKey := by
  intro s rest h more hmore
  unfold skipKey at h ⊢
  split at h
  · cases h
  · next hs =>
    obtain ⟨tail, hchars, h⟩ := bind_eq_ok_iff.mp h
    rw [skipBlanks_append_of_cons hs]
    exact bind_eq_ok_iff.mpr ⟨_, passes_skipChars hchars hmore, passes_expectColon h hmore⟩
  · cases h

theorem passes_skipScalar : Passes skipScalar := by
  intro s rest h more hmore
  unfold skipScalar at h
  split at h
  · exact passes_expectLetters _ h hmore
  · exact passes_expectLetters _ h hmore
  · exact passes_expectLetters _ h hmore
  · exact passes_skipChars h hmore
  · split at h
    · next hstarts => exact (skipScalar_of_startsNumber hstarts _).trans (passes_skipNumber h hmore)
    · cases h
  · cases h

theorem takes_openValue : Takes openValue := by
  intro s frame rest h more hmore
  -- Behind a bracket one more character has been looked at, so added text cannot close the pair.
  unfold openValue at h
  split at h
  · next tail hs =>
    have hs := skipBlanks_append_of_cons hs more
    split at h
    · cases h
    · next hclose =>
      cases h
      simp [openValue, hs, skipBlanks_append_of_cons hclose, pure, Except.pure]
    · next hnil hclosed =>
      cases h
      obtain ⟨c, item, hitem⟩ := List.exists_cons_of_ne_nil hnil
      have hc : c ≠ ']' := fun heq => hclosed item (by rw [hitem, heq])
      simp [openValue, hs, hitem, skipBlanks_append_of_cons hitem, hc, pure, Except.pure]
  · next tail hs =>
    have hs := skipBlanks_append_of_cons hs more
    split at h
    · cases h
    · next hclose =>
      cases h
      simp [openValue, hs, skipBlanks_append_of_cons hclose, pure, Except.pure]
    · next hnil hclosed =>
      obtain ⟨last, hkey, h⟩ := bind_eq_ok_iff.mp h
      cases h
      obtain ⟨c, item, hitem⟩ := List.exists_cons_of_ne_nil hnil
      have hc : c ≠ '\x7d' := fun heq => hclosed item (by rw [hitem, heq])
      rw [hitem] at hkey
      have hkey := passes_skipKey hkey hmore
      rw [List.cons_append] at hkey
      simp [openValue, hs, skipBlanks_append_of_cons hitem, hc, hkey, bind, Except.bind, pure,
        Except.pure]
  · next harray hobject =>
    obtain ⟨last, hscalar, h⟩ := bind_eq_ok_iff.mp h
    cases h
    cases hs : skipBlanks s with
    | nil =>
      rw [hs] at hscalar
      cases hscalar
    | cons c tail =>
      rw [hs] at hscalar
      refine openValue_scalar (skipBlanks_append_of_cons hs more) ?_ ?_
        (passes_skipScalar hscalar hmore)
      · exact fun heq => harray tail (by rw [hs, heq])
      · exact fun heq => hobject tail (by rw [hs, heq])

theorem takes_closeFrames (frames : List Frame) : Takes (closeFrames frames) := by
  induction frames with
  | nil =>
    intro s open' rest h more _
    cases h
    rfl
  | cons frame frames ih =>
    intro s open' rest h more hmore
    cases frame with
    | array =>
      simp only [closeFrames] at h
      split at h
      · cases h
      · next hs =>
        cases h
        simp [closeFrames, skipBlanks_append_of_cons hs, pure, Except.pure]
      · next hs =>
        have hclose := ih h hmore
        simpa [closeFrames, skipBlanks_append_of_cons hs] using hclose
      · cases h
    | object =>
      simp only [closeFrames] at h
      split at h
      · cases h
      · next hs =>
        obtain ⟨last, hkey, h⟩ := bind_eq_ok_iff.mp h
        cases h
        have hkey := passes_skipKey hkey hmore
        simp [closeFrames, skipBlanks_append_of_cons hs, hkey, bind, Except.bind, pure,
          Except.pure]
      · next hs =>
        have hclose := ih h hmore
        simpa [closeFrames, skipBlanks_append_of_cons hs] using hclose
      · cases h

theorem passes_skipFrom (frames : List Frame) : Passes (skipFrom frames) := by
  intro s rest h more hmore
  fun_induction skipFrom frames s with
  | case1 => cases h
  | case2 frames s frame tail hopen ih =>
    rw [skipFrom_of_open (takes_openValue hopen hmore)]
    exact ih h
  | case3 => cases h
  | case4 frames s tail hopen after hclose =>
    cases h
    rw [skipFrom_of_whole (takes_openValue hopen hmore)]
    exact bind_eq_ok_iff.mpr ⟨_, takes_closeFrames _ hclose hmore, rfl⟩
  | case5 frames s tail hopen frame rest' after hclose ih =>
    rw [skipFrom_of_whole (takes_openValue hopen hmore)]
    exact bind_eq_ok_iff.mpr ⟨_, takes_closeFrames _ hclose hmore, ih h⟩

theorem takes_nextItem (first : Bool) : Takes (nextItem first) := by
  intro s more rest h added _
  unfold nextItem at h
  split at h
  · cases h
  · next hs =>
    cases h
    simp [nextItem, skipBlanks_append_of_cons hs]
  · next c tail hc hs =>
    have hs := skipBlanks_append_of_cons hs added
    split at h
    · next hfirst =>
      cases h
      simp [nextItem, hs, hfirst]
    · next hfirst =>
      split at h
      · next hcomma =>
        split at h
        · cases h
        · cases h
        · next hnil hclosed =>
          cases h
          obtain ⟨item, last, hitem⟩ := List.exists_cons_of_ne_nil hnil
          have hopen : item ≠ ']' := fun heq => hclosed last (by rw [hitem, heq])
          simp [nextItem, hs, hcomma, hfirst, hitem, skipBlanks_append_of_cons hitem, hopen]
      · cases h

/-! ### Readers -/

namespace Reader

/-- The reader takes a value the same way wherever it stands. -/
structure Stable (r : Reader α) : Prop where
  skips : ∀ (blanks : Blanks) s, r.run (blanks.text ++ s) = r.run s
  takes : Takes r.run

theorem stable_boolean : boolean.Stable where
  skips blanks s := by simp only [boolean, blanks.skipBlanks_append]
  takes := by
    intro s value rest h more hmore
    simp only [boolean] at h ⊢
    split at h
    · next hs =>
      rw [skipBlanks_append_of_cons hs]
      exact takes_keyword _ _ h hmore
    · next hs =>
      rw [skipBlanks_append_of_cons hs]
      exact takes_keyword _ _ h hmore
    · cases h

theorem stable_unit : unit.Stable where
  skips blanks s := by simp only [unit, blanks.skipBlanks_append]
  takes := by
    intro s value rest h more hmore
    simp only [unit] at h ⊢
    split at h
    · next hs =>
      rw [skipBlanks_append_of_cons hs]
      exact takes_keyword _ _ h hmore
    · cases h

theorem stable_integer (expected : Expected) (convert : Int → Option α) :
    (integer expected convert).Stable where
  skips blanks s := by simp only [integer, blanks.skipBlanks_append]
  takes := by
    intro s value rest h more hmore
    simp only [integer] at h ⊢
    split at h
    · cases h
    · next c tail hs =>
      rw [skipBlanks_append_of_cons hs]
      split at h
      · next hstarts =>
        obtain ⟨⟨number, last⟩, hnumber, h⟩ := bind_eq_ok_iff.mp h
        obtain ⟨value, hvalue, h⟩ := bind_eq_ok_iff.mp h
        cases h
        have hnumber := takes_readNumber hnumber hmore
        rw [List.cons_append] at hnumber
        simp [hstarts, hnumber, hvalue, bind, Except.bind, pure, Except.pure]
      · cases h

theorem stable_chars (expected : Expected) : (chars expected).Stable where
  skips blanks s := by simp only [chars, blanks.skipBlanks_append]
  takes := by
    intro s value rest h more hmore
    simp only [chars] at h ⊢
    split at h
    · next hs =>
      rw [skipBlanks_append_of_cons hs]
      exact takes_readChars h hmore
    · cases h

variable {r : Reader α}

theorem Stable.mapOk (h : r.Stable) (f : α → Except ReadError β) : (r.mapOk f).Stable where
  skips blanks s := by simp only [Reader.mapOk, h.skips]
  takes := by
    intro s b rest hrun more hmore
    obtain ⟨⟨a, tail⟩, hvalue, hrun⟩ := bind_eq_ok_iff.mp hrun
    obtain ⟨b, hb, hrun⟩ := bind_eq_ok_iff.mp hrun
    cases hrun
    refine bind_eq_ok_iff.mpr ⟨_, h.takes hvalue hmore, ?_⟩
    exact bind_eq_ok_iff.mpr ⟨b, hb, rfl⟩

/-- Blanks alone are no value. -/
theorem Stable.exists_cons (h : r.Stable) {s rest : List Char} {a : α}
    (hrun : r.run s = .ok (a, rest)) : ∃ c tail, skipBlanks s = c :: tail := by
  apply List.exists_cons_of_ne_nil
  intro hnil
  have hskips := h.skips ⟨s, List.dropWhile_eq_nil_iff.mp hnil⟩ []
  rw [List.append_nil, hrun] at hskips
  have hshrinks := r.shrinks hskips.symm
  simp at hshrinks

theorem Stable.orNull (h : r.Stable) : r.orNull.Stable where
  skips blanks s := by simp only [Reader.orNull, blanks.skipBlanks_append, h.skips]
  takes := by
    intro s value rest hrun more hmore
    simp only [Reader.orNull] at hrun ⊢
    split at hrun
    · next hs =>
      rw [skipBlanks_append_of_cons hs]
      exact takes_keyword _ _ hrun hmore
    · next hnull =>
      obtain ⟨⟨a, tail⟩, hvalue, hrun⟩ := bind_eq_ok_iff.mp hrun
      cases hrun
      obtain ⟨c, last, hs⟩ := h.exists_cons hvalue
      have hc : c ≠ 'n' := fun heq => hnull last (by rw [hs, heq])
      simp [skipBlanks_append_of_cons hs, hc, h.takes hvalue hmore, bind, Except.bind, pure,
        Except.pure]

theorem Stable.takes_items (h : r.Stable) (first : Bool) : Takes (r.items first) := by
  intro s list rest hitems more hmore
  fun_induction items r first s generalizing list rest with
  | case1 => cases hitems
  | case2 first s tail hnext =>
    cases hitems
    exact items_of_close (takes_nextItem first hnext hmore)
  | case3 => cases hitems
  | case4 => cases hitems
  | case5 first s item hnext a tail hitem list' tail' hlist ih =>
    cases hitems
    exact items_of_item (takes_nextItem first hnext hmore) (h.takes hitem hmore) (ih hlist)

theorem Stable.list (h : r.Stable) : r.list.Stable where
  skips blanks s := by simp only [Reader.list, blanks.skipBlanks_append]
  takes := by
    intro s value rest hrun more hmore
    simp only [Reader.list] at hrun ⊢
    split at hrun
    · next hs =>
      rw [skipBlanks_append_of_cons hs]
      exact h.takes_items true hrun hmore
    · cases hrun

theorem stable_text : text.Stable :=
  (stable_chars .text).mapOk fun chars => .ok (String.ofList chars)

end Reader

theorem Codec.stable_via {c : Codec α} (h : c.read.Stable) (decode : α → Except ReadError β)
    (encode : β → Except WriteError α) : (c.via decode encode).read.Stable :=
  h.mapOk decode

end HardwareKeys.Json

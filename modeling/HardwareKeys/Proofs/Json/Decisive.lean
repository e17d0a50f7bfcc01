import HardwareKeys.Proofs.Json.Codec
import HardwareKeys.Proofs.Json.Stability

/-!
# Complete values

What a reader says of a value that is complete by the grammar, be it a result or an error, depends on the value alone and not on what follows it. So a value has one meaning for a reader, wherever the value stands: that of the value as a text of its own.
-/

namespace HardwareKeys.Json

variable {α β : Type}

/-- Inside a text the reader takes some of the body, or it fails, whatever follows the closing quote. -/
def Proceeds (p : List Char → Except ReadError (α × List Char)) (body : List Char) : Prop :=
  (∃ a tail, IsBody tail ∧ ∀ rest, p (body ++ '"' :: rest) = .ok (a, tail ++ '"' :: rest)) ∨
    ∃ e, ∀ rest, p (body ++ '"' :: rest) = .error e

theorem readTrailing_of_ne {leading : Nat} {c : Char} (h : c ≠ '\\') (s : List Char) :
    readTrailing leading (c :: s) = .error .unfinishedSurrogate := by
  unfold readTrailing
  split
  · next heq => cases heq
  · next heq => exact absurd (List.cons.inj heq).1 h
  · next heq => exact absurd (List.cons.inj heq).1 h
  · rfl

theorem readTrailing_letter {leading : Nat} {letter : Char} (h : (escaped? letter).isSome)
    (s : List Char) :
    readTrailing leading ('\\' :: letter :: s) = .error .unfinishedSurrogate := by
  unfold readTrailing
  split
  · next heq => cases heq
  · next heq => cases heq
  · next heq =>
    obtain ⟨rfl, -⟩ := List.cons.inj (List.cons.inj heq).2
    simp [escaped?_u] at h
  · rfl

theorem proceeds_readTrailing (leading : Nat) {body : List Char} (h : IsBody body) :
    Proceeds (readTrailing leading) body := by
  cases h with
  | nil => exact .inr ⟨_, fun rest => readTrailing_of_ne (by decide) rest⟩
  | @cons form s hform hs =>
    cases hform with
    | plain h => exact .inr ⟨_, fun rest => readTrailing_of_ne h.notBackslash _⟩
    | escape h => exact .inr ⟨_, fun rest => readTrailing_letter h _⟩
    | @unit digits unit h =>
      have hrun : ∀ rest, readTrailing leading ('\\' :: 'u' :: digits ++ s ++ '"' :: rest) =
          if isTrailingSurrogate unit then
            .ok (Char.ofNat (joinSurrogates leading unit), s ++ '"' :: rest)
          else .error .loneSurrogate := by
        intro rest
        simp only [List.cons_append, List.append_assoc, readTrailing, h.readUnit_append]
        rfl
      by_cases htrailing : isTrailingSurrogate unit = true
      · exact .inl ⟨_, s, hs, fun rest => by rw [hrun, if_pos htrailing]⟩
      · exact .inr ⟨_, fun rest => by rw [hrun, if_neg htrailing]⟩

theorem proceeds_readEscape {digits : List Char} {unit : Nat} (h : SpellsUnit digits unit)
    {body : List Char} (hbody : IsBody body) :
    Proceeds readEscape ('u' :: (digits ++ body)) := by
  have hrun : ∀ rest, readEscape ('u' :: (digits ++ body) ++ '"' :: rest) =
      if isTrailingSurrogate unit then .error .loneSurrogate
      else if isLeadingSurrogate unit then readTrailing unit (body ++ '"' :: rest)
      else .ok (Char.ofNat unit, body ++ '"' :: rest) := by
    intro rest
    simp only [List.cons_append, List.append_assoc, readEscape, h.readUnit_append]
    rfl
  by_cases htrailing : isTrailingSurrogate unit = true
  · exact .inr ⟨_, fun rest => by rw [hrun, if_pos htrailing]⟩
  · simp only [Proceeds, hrun, if_neg htrailing]
    by_cases hleading : isLeadingSurrogate unit = true
    · simp only [if_pos hleading]
      exact proceeds_readTrailing unit hbody
    · simp only [if_neg hleading]
      exact .inl ⟨_, body, hbody, fun rest => rfl⟩

/-- A form of a character inside a text is read, or refused, whatever follows the closing quote. -/
theorem proceeds_nextChar {form body : List Char} (hform : IsForm form) (h : IsBody body) :
    (∃ c tail, IsBody tail ∧ ∀ rest,
      nextChar (form ++ body ++ '"' :: rest) = .ok (some c, tail ++ '"' :: rest)) ∨
    ∃ e, ∀ rest, nextChar (form ++ body ++ '"' :: rest) = .error e := by
  cases hform with
  | plain hplain =>
    exact .inl ⟨_, body, h, fun rest =>
      nextChar_plain hplain.notQuote hplain.notBackslash hplain.notControl _⟩
  | escape hletter =>
    obtain ⟨c, hc⟩ := Option.isSome_iff_exists.mp hletter
    exact .inl ⟨c, body, h, fun rest => nextChar_escape (readEscape_letter hc _)⟩
  | unit hunit =>
    rcases proceeds_readEscape hunit h with ⟨c, tail, htail, hescape⟩ | ⟨e, hescape⟩
    · refine .inl ⟨c, tail, htail, fun rest => ?_⟩
      simpa using nextChar_escape (hescape rest)
    · refine .inr ⟨e, fun rest => ?_⟩
      have hescape := hescape rest
      simp only [List.cons_append, List.append_assoc] at hescape ⊢
      simp [nextChar, hescape, bind, Except.bind]

theorem readChars_of_nextChar_error {s : List Char} {e : ReadError} (h : nextChar s = .error e) :
    readChars s = .error e := by
  rw [readChars]
  split <;> simp_all

theorem readChars_of_nextChar_some {s tail : List Char} {c : Char}
    (h : nextChar s = .ok (some c, tail)) :
    readChars s = (fun result => (c :: result.1, result.2)) <$> readChars tail := by
  rw [readChars]
  split
  · simp_all
  · simp_all
  · next heq =>
    obtain ⟨rfl, rfl⟩ : c = _ ∧ tail = _ := by simpa [h] using heq
    cases readChars tail <;> rfl

/-- The characters that stand between the quotes of a text, or what is wrong with them. -/
def bodyChars (body : List Char) : Except ReadError (List Char) :=
  Prod.fst <$> readChars (body ++ ['"'])

theorem IsBody.exists_readChars {body : List Char} (h : IsBody body) :
    ∃ x : Except ReadError (List Char),
      ∀ rest, readChars (body ++ '"' :: rest) = (fun chars => (chars, rest)) <$> x := by
  -- The second half of a surrogate pair goes with the first, so the induction is on the length.
  induction hlength : body.length using Nat.strongRecOn generalizing body with
  | _ n ih =>
    cases h with
    | nil => exact ⟨.ok [], readChars_quote⟩
    | cons hform hs =>
      rcases proceeds_nextChar hform hs with ⟨c, tail, htail, hnext⟩ | ⟨e, hnext⟩
      · have hlt := nextChar_length_lt (hnext [])
        simp only [List.length_append, List.length_cons] at hlt hlength
        obtain ⟨x, hx⟩ := ih tail.length (by omega) htail rfl
        refine ⟨(c :: ·) <$> x, fun rest => ?_⟩
        rw [readChars_of_nextChar_some (hnext rest), hx, Functor.map_map, Functor.map_map]
      · exact ⟨.error e, fun rest => readChars_of_nextChar_error (hnext rest)⟩

theorem IsBody.readChars_append {body : List Char} (h : IsBody body) (rest : List Char) :
    readChars (body ++ '"' :: rest) = (fun chars => (chars, rest)) <$> bodyChars body := by
  obtain ⟨x, hx⟩ := h.exists_readChars
  have hchars : bodyChars body = x := by
    rw [bodyChars, hx, Functor.map_map]
    exact id_map x
  rw [hx, hchars]

theorem SpellsChars.bodyChars_eq {body chars : List Char} (h : SpellsChars body chars) :
    bodyChars body = .ok chars := by
  rw [bodyChars, h.readChars_append]
  rfl

/-- Before whatever follows, the reader answers the value with `x`. -/
def Reader.Settles (r : Reader α) (s : List Char) (x : Except ReadError α) : Prop :=
  ∀ rest, EndsNumber rest → r.run (s ++ rest) = (fun a => (a, rest)) <$> x

theorem readNumber_append {n : Numeral} {s rest : List Char} (h : n.Spells s)
    (hrest : EndsNumber rest) :
    readNumber (s ++ rest) = (fun number => (number, rest)) <$> n.value := by
  unfold readNumber
  rw [Numeral.scan_append h hrest]
  simp only [mapError_ok, bind, Except.bind]
  cases n.value <;> rfl

theorem found_of_startsNumber {c : Char} (h : Numeral.startsNumber c = true) (s : List Char) :
    found (c :: s) = (fun result => result.1.found) <$> readNumber (c :: s) := by
  unfold found
  split
  · next heq => cases heq
  · next heq => exact absurd (List.cons.inj heq).1 (ne_of_startsNumber h (by decide))
  · next heq => exact absurd (List.cons.inj heq).1 (ne_of_startsNumber h (by decide))
  · next heq => exact absurd (List.cons.inj heq).1 (ne_of_startsNumber h (by decide))
  · next heq => exact absurd (List.cons.inj heq).1 (ne_of_startsNumber h (by decide))
  · next heq => exact absurd (List.cons.inj heq).1 (ne_of_startsNumber h (by decide))
  · next heq => exact absurd (List.cons.inj heq).1 (ne_of_startsNumber h (by decide))
  · next heq =>
    obtain ⟨rfl, rfl⟩ := List.cons.inj heq
    rw [if_pos h]
    cases readNumber (c :: s) <;> rfl

/-- What is said of a value of the wrong type depends on the value alone. -/
theorem IsValue.exists_found {v : List Char} (h : IsValue v) :
    ∃ x, ∀ rest, EndsNumber rest → found (v ++ rest) = x := by
  cases h with
  | null => exact ⟨_, fun _ _ => rfl⟩
  | boolean value =>
    cases value with
    | false => exact ⟨_, fun _ _ => rfl⟩
    | true => exact ⟨_, fun _ _ => rfl⟩
  | @number n _ h =>
    refine ⟨Number.found <$> n.value, fun rest hrest => ?_⟩
    have hnumber := readNumber_append h hrest
    obtain ⟨c, tail, rfl, hc⟩ := h.eq_cons
    rw [List.cons_append] at hnumber ⊢
    rw [found_of_startsNumber hc, hnumber, Functor.map_map]
  | @text body h =>
    refine ⟨(fun chars => .text (String.ofList chars)) <$> bodyChars body, fun rest _ => ?_⟩
    have hchars := h.readChars_append rest
    simp only [List.cons_append, List.append_assoc, List.nil_append, found, hchars]
    cases bodyChars body <;> rfl
  | emptyArray | array | emptyObject | object => exact ⟨_, fun _ _ => rfl⟩

theorem IsValue.wrongType_append {v : List Char} (h : IsValue v) (expected : Expected)
    {rest : List Char} (hrest : EndsNumber rest) :
    wrongType expected (v ++ rest) = wrongType expected v := by
  obtain ⟨x, hx⟩ := h.exists_found
  have hfound := hx [] endsNumber_nil
  rw [List.append_nil] at hfound
  rw [wrongType, hx rest hrest, wrongType, hfound]

/-! ### Readers -/

namespace Reader

/-- Every complete value gets an answer that does not depend on what follows it. -/
structure Decisive (r : Reader α) : Prop extends r.Stable where
  settles : ∀ {v}, IsValue v → ∃ x, r.Settles v x

theorem settles_wrongType {r : Reader α} {expected : Expected} {v : List Char} (h : IsValue v)
    (hrun : ∀ rest, r.run (v ++ rest) = .error (wrongType expected (v ++ rest))) :
    ∃ x, r.Settles v x := by
  refine ⟨.error (wrongType expected v), fun rest hrest => ?_⟩
  rw [hrun, h.wrongType_append expected hrest]
  rfl

/-- A number is told by its first character to be of the wrong type. -/
theorem settles_wrongType_number {r : Reader α} {expected : Expected} {n : Numeral}
    {s : List Char} (h : n.Spells s)
    (hrun : ∀ c tail, Numeral.startsNumber c = true → skipBlanks (c :: tail) = c :: tail →
      r.run (c :: tail) = .error (wrongType expected (c :: tail))) : ∃ x, r.Settles s x := by
  have hv : IsValue s := .number h
  obtain ⟨c, tail, rfl, hc⟩ := h.eq_cons
  exact settles_wrongType hv fun rest =>
    hrun c (tail ++ rest) hc (hv.startsItem.skipBlanks_append rest)

theorem Settles.readAll {c : Codec α} {v : List Char} {x : Except ReadError α}
    (h : c.read.Settles v x) : c.readAll v = x := by
  have hrun := h [] endsNumber_nil
  rw [List.append_nil] at hrun
  rw [Codec.readAll, hrun]
  cases x <;> rfl

theorem Settles.run_item {r : Reader α} (hr : r.Stable) {item : Item} {x : Except ReadError α}
    (h : r.Settles item.value x) {rest : List Char} (hrest : EndsNumber rest) :
    r.run (item.text ++ rest) = (fun a => (a, item.after.text ++ rest)) <$> x := by
  rw [Item.text, List.append_assoc, List.append_assoc, hr.skips,
    h _ (item.after.endsNumber_append hrest)]

/-- Inside a text, an item is read as its value is read alone. -/
theorem Decisive.run_item {c : Codec α} (h : c.read.Decisive) {item : Item}
    (hitem : IsValue item.value) {rest : List Char} (hrest : EndsNumber rest) :
    c.read.run (item.text ++ rest) =
      (fun a => (a, item.after.text ++ rest)) <$> c.readAll item.value := by
  obtain ⟨x, hx⟩ := h.settles hitem
  rw [hx.run_item h.toStable hrest, hx.readAll]

theorem Settles.readAll_item {c : Codec α} (hc : c.read.Stable) {item : Item}
    {x : Except ReadError α} (h : c.read.Settles item.value x) : c.readAll item.text = x := by
  have hrun := h.run_item hc endsNumber_nil
  rw [List.append_nil, List.append_nil] at hrun
  rw [Codec.readAll, hrun]
  cases x with
  | error e => rfl
  | ok a =>
    simp only [Functor.map, Except.map, bind, Except.bind, expectEnd_eq_ok_iff.mpr item.after.blank]
    rfl

theorem Settles.mapOk {r : Reader α} {v : List Char} {x : Except ReadError α}
    (h : r.Settles v x) (f : α → Except ReadError β) : (r.mapOk f).Settles v (x >>= f) := by
  intro rest hrest
  simp only [Reader.mapOk, h rest hrest]
  cases x with
  | error e => rfl
  | ok a => cases f a <;> rfl

theorem Decisive.mapOk {r : Reader α} (h : r.Decisive) (f : α → Except ReadError β) :
    (r.mapOk f).Decisive where
  toStable := h.toStable.mapOk f
  settles hv := by
    obtain ⟨x, hx⟩ := h.settles hv
    exact ⟨_, hx.mapOk f⟩

theorem run_boolean_of_ne {s tail : List Char} {c : Char} (hs : skipBlanks s = c :: tail)
    (htrue : c ≠ 't') (hfalse : c ≠ 'f') :
    boolean.run s = .error (wrongType .boolean (c :: tail)) := by
  simp only [boolean, hs]
  split
  · next heq => exact absurd (List.cons.inj heq).1 htrue
  · next heq => exact absurd (List.cons.inj heq).1 hfalse
  · rfl

theorem decisive_boolean : boolean.Decisive where
  toStable := stable_boolean
  settles := by
    intro v hv
    have hvalue := hv
    cases hvalue with
    | boolean value => exact ⟨.ok value, reads_boolean value⟩
    | number h =>
      exact settles_wrongType_number h fun _ _ hc hs =>
        run_boolean_of_ne hs (ne_of_startsNumber hc (by decide))
          (ne_of_startsNumber hc (by decide))
    | null | text | emptyArray | array | emptyObject | object =>
      exact settles_wrongType hv fun _ => rfl

theorem run_unit_of_ne {s tail : List Char} {c : Char} (hs : skipBlanks s = c :: tail)
    (hc : c ≠ 'n') : unit.run s = .error (wrongType .unit (c :: tail)) := by
  simp only [unit, hs]
  split
  · next heq => exact absurd (List.cons.inj heq).1 hc
  · rfl

theorem decisive_unit : unit.Decisive where
  toStable := stable_unit
  settles := by
    intro v hv
    have hvalue := hv
    cases hvalue with
    | null => exact ⟨.ok (), fun _ _ => rfl⟩
    | boolean value =>
      cases value <;> exact settles_wrongType hv fun _ => rfl
    | number h =>
      exact settles_wrongType_number h fun _ _ hc hs =>
        run_unit_of_ne hs (ne_of_startsNumber hc (by decide))
    | text | emptyArray | array | emptyObject | object =>
      exact settles_wrongType hv fun _ => rfl

theorem run_chars_of_ne {expected : Expected} {s tail : List Char} {c : Char}
    (hs : skipBlanks s = c :: tail) (hc : c ≠ '"') :
    (chars expected).run s = .error (wrongType expected (c :: tail)) := by
  simp only [chars, hs]
  split
  · next heq => exact absurd (List.cons.inj heq).1 hc
  · rfl

theorem decisive_chars (expected : Expected) : (chars expected).Decisive where
  toStable := stable_chars expected
  settles := by
    intro v hv
    have hvalue := hv
    cases hvalue with
    | @text body h =>
      refine ⟨bodyChars body, fun rest _ => ?_⟩
      rw [← h.readChars_append]
      simp only [List.cons_append, List.append_assoc, List.nil_append]
      rfl
    | boolean value =>
      cases value <;> exact settles_wrongType hv fun _ => rfl
    | number h =>
      exact settles_wrongType_number h fun _ _ hc hs =>
        run_chars_of_ne hs (ne_of_startsNumber hc (by decide))
    | null | emptyArray | array | emptyObject | object =>
      exact settles_wrongType hv fun _ => rfl

theorem settles_spellsText {expected : Expected} {item : Item} {s : List Char}
    (h : item.SpellsText s) : (chars expected).Settles item.value (.ok s) := by
  obtain ⟨body, hbody, hvalue⟩ := h
  intro rest _
  rw [hvalue, List.cons_append, List.append_assoc]
  exact hbody.readChars_append rest

theorem decisive_text : text.Decisive :=
  (decisive_chars .text).mapOk fun chars => .ok (String.ofList chars)

/-- A literal is read for its value, whether that is an integer of the type or not. -/
theorem settles_integer {n : Numeral} {s : List Char} (h : n.Spells s) (expected : Expected)
    (convert : Int → Option α) :
    (integer expected convert).Settles s (n.value >>= convertInteger expected convert) := by
  intro rest hrest
  have hv : IsValue s := .number h
  have hnumber := readNumber_append h hrest
  have hblanks := hv.startsItem.skipBlanks_append rest
  obtain ⟨c, tail, rfl, hc⟩ := h.eq_cons
  rw [List.cons_append] at hnumber hblanks ⊢
  simp only [integer, hblanks, if_pos hc, hnumber]
  cases n.value with
  | error e => rfl
  | ok number =>
    simp only [Functor.map, Except.map, bind, Except.bind]
    cases convertInteger expected convert number <;> rfl

theorem decisive_integer (expected : Expected) (convert : Int → Option α) :
    (integer expected convert).Decisive where
  toStable := stable_integer expected convert
  settles := by
    intro v hv
    have hvalue := hv
    cases hvalue with
    | number h => exact ⟨_, settles_integer h expected convert⟩
    | boolean value =>
      cases value <;> exact settles_wrongType hv fun _ => rfl
    | null | text | emptyArray | array | emptyObject | object =>
      exact settles_wrongType hv fun _ => rfl

theorem IsValue.eq_null {tail : List Char} (h : IsValue ('n' :: tail)) :
    'n' :: tail = writeNull := by
  generalize hs : 'n' :: tail = s at h
  cases h with
  | null => rfl
  | boolean value => cases value <;> cases hs
  | number h =>
    obtain ⟨c, tail, rfl, hc⟩ := h.eq_cons
    obtain ⟨rfl, -⟩ := List.cons.inj hs
    exact absurd hc (by decide)
  | text | emptyArray | array | emptyObject | object => cases hs

theorem Settles.orNull {r : Reader α} {c : Char} {tail : List Char} {x : Except ReadError α}
    (h : r.Settles (c :: tail) x) (hblank : isBlank c = false) (hc : c ≠ 'n') :
    r.orNull.Settles (c :: tail) (some <$> x) := by
  intro rest hrest
  have hrun := h rest hrest
  rw [List.cons_append] at hrun ⊢
  simp only [Reader.orNull, skipBlanks_cons hblank]
  split
  · next heq => exact absurd (List.cons.inj heq).1 hc
  · rw [hrun]
    cases x <;> rfl

theorem Decisive.orNull {r : Reader α} (h : r.Decisive) : r.orNull.Decisive where
  toStable := h.toStable.orNull
  settles := by
    intro v hv
    obtain ⟨c, tail, rfl, hblank, -⟩ := hv.startsItem
    by_cases hc : c = 'n'
    · subst hc
      rw [IsValue.eq_null hv]
      exact ⟨.ok none, reads_null⟩
    · obtain ⟨x, hx⟩ := h.settles hv
      exact ⟨_, hx.orNull hblank hc⟩

/-! ### Arrays -/

theorem nextItem_blanks (first : Bool) (blanks : Blanks) (s : List Char) :
    nextItem first (blanks.text ++ s) = nextItem first s := by
  rw [nextItem, blanks.skipBlanks_append, nextItem]

theorem nextItem_item {item : Item} (h : StartsItem item.value) (rest : List Char) :
    nextItem true (item.text ++ rest) = .ok (true, item.value ++ (item.after.text ++ rest)) := by
  rw [Item.text, List.append_assoc, nextItem_blanks, List.append_assoc, nextItem_first h]

theorem nextItem_commaItem {item : Item} (h : StartsItem item.value) (rest : List Char) :
    nextItem false (',' :: (item.text ++ rest)) =
      .ok (true, item.value ++ (item.after.text ++ rest)) := by
  obtain ⟨c, tail, hvalue, hblank, hc⟩ := h
  simp [nextItem, Item.text, hvalue, skipBlanks_cons hblank, skipBlanks_cons, isBlank, hc]

theorem items_of_next {r : Reader α} {first : Bool} {s item : List Char}
    (h : nextItem first s = .ok (true, item)) :
    r.items first s = r.run item >>= fun (a, tail) =>
      (fun (list, rest) => (a :: list, rest)) <$> r.items false tail := by
  rw [items]
  split
  · simp_all
  · simp_all
  · next heq =>
    obtain rfl : item = _ := by simpa [h] using heq
    split
    · next hitem => rw [hitem]; rfl
    · next hitem =>
      rw [hitem]
      simp only [bind, Except.bind]
      split <;> next hlist => rw [hlist]; rfl

theorem Decisive.exists_items {r : Reader α} (h : r.Decisive) {items : List Item}
    (hitems : ∀ item ∈ items, IsValue item.value) :
    ∃ x : Except ReadError (List α), ∀ (blanks : Blanks) rest,
      r.items false (blanks.text ++ ((items.map Item.text).flatMap (',' :: ·) ++ ']' :: rest)) =
        (fun list => (list, rest)) <$> x := by
  induction items with
  | nil =>
    refine ⟨.ok [], fun blanks rest => items_of_close ?_⟩
    rw [nextItem_blanks]
    exact nextItem_close false rest
  | cons item items ih =>
    obtain ⟨hitem, hitems⟩ := List.forall_mem_cons.mp hitems
    obtain ⟨x, hx⟩ := h.settles hitem
    obtain ⟨y, hy⟩ := ih hitems
    refine ⟨x >>= fun a => (a :: ·) <$> y, fun blanks rest => ?_⟩
    have hends := endsNumber_flatMap_comma (items.map Item.text) rest
      (show continuesNumber ']' = false by decide)
    have hnext := nextItem_commaItem hitem.startsItem
      ((items.map Item.text).flatMap (',' :: ·) ++ ']' :: rest)
    rw [List.map_cons, List.flatMap_cons, List.append_assoc, List.cons_append]
    rw [items_of_next (by rw [nextItem_blanks, hnext]), hx _ (item.after.endsNumber_append hends)]
    cases x with
    | error e => rfl
    | ok a =>
      simp only [Functor.map, Except.map, bind, Except.bind, hy]
      cases y <;> rfl

theorem Decisive.settles_items {r : Reader α} (h : r.Decisive) {items : List Item} {s : List Char}
    (hs : SpellsArray items s) (hitems : ∀ item ∈ items, IsValue item.value) :
    ∃ x, r.list.Settles s x := by
  cases hs with
  | empty blanks =>
    refine ⟨.ok [], fun rest _ => ?_⟩
    have hclose : nextItem true (blanks.text ++ ']' :: rest) = .ok (false, rest) := by
      rw [nextItem_blanks]
      exact nextItem_close true rest
    simp only [List.cons_append, List.append_assoc, List.nil_append]
    exact items_of_close hclose
  | cons item items =>
    obtain ⟨hitem, hitems⟩ := List.forall_mem_cons.mp hitems
    obtain ⟨x, hx⟩ := h.settles hitem
    obtain ⟨y, hy⟩ := h.exists_items hitems
    refine ⟨x >>= fun a => (a :: ·) <$> y, fun rest _ => ?_⟩
    have hends := endsNumber_flatMap_comma (items.map Item.text) rest
      (show continuesNumber ']' = false by decide)
    have hrun : r.list.run (writeArray ((item :: items).map Item.text) ++ rest) =
        r.items true (item.text ++ ((items.map Item.text).flatMap (',' :: ·) ++ ']' :: rest)) := by
      simp only [writeArray, List.map_cons, intercalate_comma_cons, List.cons_append,
        List.append_assoc, List.nil_append]
      rfl
    rw [hrun, items_of_next (nextItem_item hitem.startsItem _),
      hx _ (item.after.endsNumber_append hends)]
    cases x with
    | error e => rfl
    | ok a =>
      simp only [Functor.map, Except.map, bind, Except.bind, hy]
      cases y <;> rfl

theorem run_list_of_ne {r : Reader α} {s tail : List Char} {c : Char}
    (hs : skipBlanks s = c :: tail) (hc : c ≠ '[') :
    r.list.run s = .error (wrongType .sequence (c :: tail)) := by
  simp only [list, hs]
  split
  · next heq => exact absurd (List.cons.inj heq).1 hc
  · rfl

theorem Decisive.list {r : Reader α} (h : r.Decisive) : r.list.Decisive where
  toStable := h.toStable.list
  settles := by
    intro v hv
    have hvalue := hv
    cases hvalue with
    | emptyArray blanks => exact h.settles_items (.empty blanks) (List.forall_mem_nil _)
    | array hitem hitems =>
      exact h.settles_items (.cons _ _) (List.forall_mem_cons.mpr ⟨hitem, hitems⟩)
    | boolean value =>
      cases value <;> exact settles_wrongType hv fun _ => rfl
    | number h =>
      exact settles_wrongType_number h fun _ _ hc hs =>
        run_list_of_ne hs (ne_of_startsNumber hc (by decide))
    | null | text | emptyObject | object => exact settles_wrongType hv fun _ => rfl

end Reader

theorem Codec.decisive_via {c : Codec α} (h : c.read.Decisive) (decode : α → Except ReadError β)
    (encode : β → Except WriteError α) : (c.via decode encode).read.Decisive :=
  h.mapOk decode

end HardwareKeys.Json

import HardwareKeys.Proofs.Json.Decisive

/-!
# Texts that are cut off

Of a text that has lost its end a reader says that it ended too early, wherever the cut falls. A number alone may be taken for one with fewer digits, and then there is nothing after it, so that whoever reads on notices the end.
-/

namespace HardwareKeys.Json

variable {α β : Type}

/-- What is left of a text that has lost its end. -/
def Cut (t s : List Char) : Prop := ∃ c tail, t ++ c :: tail = s

theorem cut_iff_isPrefix {t s : List Char} : Cut t s ↔ t <+: s ∧ t ≠ s := by
  constructor
  · rintro ⟨c, tail, rfl⟩
    refine ⟨List.prefix_append t _, fun heq => ?_⟩
    simpa using congrArg List.length heq
  · rintro ⟨⟨tail, rfl⟩, hne⟩
    cases tail with
    | nil => exact absurd (List.append_nil t).symm hne
    | cons c tail => exact ⟨c, tail, rfl⟩

theorem not_cut_nil (t : List Char) : ¬Cut t [] := by
  rintro ⟨c, tail, h⟩
  cases t <;> cases h

theorem cut_cons_iff {t s : List Char} {c : Char} :
    Cut t (c :: s) ↔ t = [] ∨ ∃ tail, t = c :: tail ∧ Cut tail s := by
  constructor
  · rintro ⟨d, rest, h⟩
    cases t with
    | nil => exact .inl rfl
    | cons first tail =>
      obtain ⟨rfl, htail⟩ := List.cons.inj h
      exact .inr ⟨tail, rfl, d, rest, htail⟩
  · rintro (rfl | ⟨tail, rfl, d, rest, rfl⟩)
    · exact ⟨c, s, rfl⟩
    · exact ⟨d, rest, rfl⟩

theorem cut_cons_cons_iff {t s : List Char} {c d : Char} :
    Cut t (c :: d :: s) ↔ t = [] ∨ t = [c] ∨ ∃ tail, t = c :: d :: tail ∧ Cut tail s := by
  simp only [cut_cons_iff]
  constructor
  · rintro (rfl | ⟨_, rfl, rfl | ⟨tail, rfl, htail⟩⟩)
    · exact .inl rfl
    · exact .inr (.inl rfl)
    · exact .inr (.inr ⟨tail, rfl, htail⟩)
  · rintro (rfl | rfl | ⟨tail, rfl, htail⟩)
    · exact .inl rfl
    · exact .inr ⟨[], rfl, .inl rfl⟩
    · exact .inr ⟨_, rfl, .inr ⟨tail, rfl, htail⟩⟩

theorem Cut.eq_nil_of_singleton {t : List Char} {c : Char} (h : Cut t [c]) : t = [] := by
  obtain rfl | ⟨tail, -, htail⟩ := cut_cons_iff.mp h
  · rfl
  · exact absurd htail (not_cut_nil tail)

/-- The cut falls into the first part, or after it. -/
theorem Cut.of_append {t first second : List Char} (h : Cut t (first ++ second)) :
    Cut t first ∨ ∃ tail, t = first ++ tail ∧ Cut tail second := by
  induction first generalizing t with
  | nil => exact .inr ⟨t, rfl, h⟩
  | cons c first ih =>
    obtain rfl | ⟨tail, rfl, htail⟩ := cut_cons_iff.mp h
    · exact .inl (cut_cons_iff.mpr (.inl rfl))
    · obtain hfirst | ⟨last, rfl, hlast⟩ := ih htail
      · exact .inl (cut_cons_iff.mpr (.inr ⟨tail, rfl, hfirst⟩))
      · exact .inr ⟨last, rfl, hlast⟩

theorem Cut.endsNumber {t s : List Char} (h : Cut t s) (hs : EndsNumber s) : EndsNumber t := by
  obtain ⟨c, tail, rfl⟩ := h
  cases t with
  | nil => exact endsNumber_nil
  | cons first t => exact endsNumber_cons.mpr (endsNumber_cons.mp hs)

theorem StartsItem.of_cut {t s rest : List Char} (hs : StartsItem s) (h : Cut t (s ++ rest)) :
    t = [] ∨ StartsItem t := by
  obtain ⟨c, tail, rfl, hblank, hc⟩ := hs
  obtain rfl | ⟨first, rfl, -⟩ := cut_cons_iff.mp h
  · exact .inl rfl
  · exact .inr ⟨c, first, rfl, hblank, hc⟩

/-- The text ends too early. -/
def Ended (x : Except ReadError α) : Prop := ∃ e, x = .error e ∧ e.category = .ended

theorem Ended.bind {x : Except ReadError α} (h : Ended x) (f : α → Except ReadError β) :
    Ended (x >>= f) := by
  obtain ⟨e, rfl, he⟩ := h
  exact ⟨e, rfl, he⟩

theorem Ended.map {x : Except ReadError α} (h : Ended x) (f : α → β) : Ended (f <$> x) := by
  obtain ⟨e, rfl, he⟩ := h
  exact ⟨e, rfl, he⟩

theorem ended_expectLetters {letters t : List Char} (h : Cut t letters) :
    Ended (expectLetters letters t) := by
  induction letters generalizing t with
  | nil => exact absurd h (not_cut_nil t)
  | cons letter letters ih =>
    obtain rfl | ⟨tail, rfl, htail⟩ := cut_cons_iff.mp h
    · exact ⟨_, rfl, rfl⟩
    · simp only [expectLetters, ↓reduceIte]
      exact ih htail

theorem utf8Length_append (s t : List Char) :
    utf8Length (s ++ t) = utf8Length s + utf8Length t := by
  induction s with
  | nil => simp [utf8Length]
  | cons c s ih =>
    simp only [utf8Length, List.cons_append, List.foldr_cons] at ih ⊢
    omega

theorem ended_readUnit {digits t : List Char} {unit : Nat} (hdigits : SpellsUnit digits unit)
    (h : Cut t digits) : Ended (readUnit t) := by
  obtain ⟨c, tail, rfl⟩ := h
  obtain ⟨hlength, hvalue⟩ := hdigits
  have hbytes := utf8Length_of_readHex hvalue
  have hsize := length_le_utf8Length (c :: tail)
  rw [utf8Length_append] at hbytes
  simp only [List.length_append, List.length_cons] at hlength hbytes hsize
  rw [readUnit, List.take_of_length_le (by omega), if_pos (by omega)]
  exact ⟨_, rfl, rfl⟩

theorem ended_readTrailing {low t : List Char} {leading trailing : Nat}
    (hlow : SpellsUnit low trailing) (h : Cut t ('\\' :: 'u' :: low)) :
    Ended (readTrailing leading t) := by
  obtain rfl | rfl | ⟨tail, rfl, htail⟩ := cut_cons_cons_iff.mp h
  · exact ⟨_, rfl, rfl⟩
  · exact ⟨_, rfl, rfl⟩
  · exact (ended_readUnit hlow htail).bind _

theorem ended_nextChar {form t : List Char} {c : Char} (hform : SpellsChar form c)
    (h : Cut t form) : Ended (nextChar t) := by
  have hempty : Ended (nextChar []) := ⟨_, rfl, rfl⟩
  have hescape : ∀ {s}, Ended (readEscape s) → Ended (nextChar ('\\' :: s)) := fun hs => hs.bind _
  have hbackslash : Ended (nextChar ['\\']) := hescape ⟨_, rfl, rfl⟩
  cases hform with
  | plain =>
    obtain rfl := h.eq_nil_of_singleton
    exact hempty
  | escape =>
    obtain rfl | rfl | ⟨tail, -, htail⟩ := cut_cons_cons_iff.mp h
    · exact hempty
    · exact hbackslash
    · exact absurd htail (not_cut_nil tail)
  | unit hunit =>
    obtain rfl | rfl | ⟨tail, rfl, htail⟩ := cut_cons_cons_iff.mp h
    · exact hempty
    · exact hbackslash
    · exact hescape ((ended_readUnit hunit htail).bind _)
  | @pair high low leading trailing hhigh hlow hleading =>
    obtain rfl | rfl | ⟨tail, rfl, htail⟩ := cut_cons_cons_iff.mp h
    · exact hempty
    · exact hbackslash
    · refine hescape ?_
      obtain hcut | ⟨last, rfl, hlast⟩ := htail.of_append
      · exact (ended_readUnit hhigh hcut).bind _
      · have hrun : readEscape ('u' :: (high ++ last)) = readTrailing leading last := by
          rw [readEscape, hhigh.readUnit_append]
          simp [bind, Except.bind, isTrailingSurrogate_of_isLeadingSurrogate hleading, hleading]
        rw [hrun]
        exact ended_readTrailing hlow hlast

/-- The closing quote is either missed or passed. -/
theorem ended_readChars_or {body chars t rest : List Char} (hbody : SpellsChars body chars)
    (h : Cut t (body ++ '"' :: rest)) :
    Ended (readChars t) ∨ ∃ tail, readChars t = .ok (chars, tail) ∧ Cut tail rest := by
  induction hbody generalizing t with
  | nil =>
    obtain rfl | ⟨tail, rfl, htail⟩ := cut_cons_iff.mp h
    · exact .inl ⟨_, readChars_of_nextChar_error rfl, rfl⟩
    · exact .inr ⟨tail, readChars_quote tail, htail⟩
  | cons hform _ ih =>
    rw [List.append_assoc] at h
    obtain hcut | ⟨tail, rfl, htail⟩ := h.of_append
    · obtain ⟨e, he, hended⟩ := ended_nextChar hform hcut
      exact .inl ⟨e, readChars_of_nextChar_error he, hended⟩
    · have hnext := hform.nextChar_append tail
      obtain hended | ⟨last, hchars, hlast⟩ := ih htail
      · rw [readChars_of_nextChar_some hnext]
        exact .inl (hended.map _)
      · exact .inr ⟨last, readChars_of_nextChar hnext hchars, hlast⟩

theorem ended_readChars_writeText {chars t : List Char}
    (h : Cut t (chars.flatMap writeChar ++ ['"'])) : Ended (readChars t) := by
  obtain hended | ⟨tail, -, htail⟩ := ended_readChars_or (spellsChars_flatMap_writeChar chars) h
  · exact hended
  · exact absurd htail (not_cut_nil tail)

theorem isPrefix_toDigits {n : Nat} {t : List Char} (h : t <+: Nat.toDigits 10 n) (hne : t ≠ []) :
    ∃ m ≤ n, t = Nat.toDigits 10 m ∧ (0 < n → 0 < m) := by
  induction n using Nat.strongRecOn with
  | _ n ih =>
    by_cases hn : n < 10
    · rw [Nat.toDigits_of_lt_base hn] at h
      obtain hnil | ⟨tail, rfl, htail⟩ := List.prefix_cons_iff.mp h
      · exact absurd hnil hne
      · refine ⟨n, le_rfl, ?_, id⟩
        rw [List.prefix_nil.mp htail, Nat.toDigits_of_lt_base hn]
    · have hle := Nat.le_of_not_lt hn
      have hdigits := Nat.toDigits_of_base_le (b := 10) (by decide) hle
      rw [hdigits] at h
      obtain rfl | h := List.prefix_concat_iff.mp h
      · exact ⟨n, le_rfl, hdigits.symm, id⟩
      · obtain ⟨m, hm, ht, hpos⟩ := ih (n / 10) (by omega) h
        exact ⟨m, by omega, ht, fun _ => hpos (by omega)⟩

/-- A written integer that has lost digits is a written integer nearer to zero. -/
theorem Cut.of_writeInt {n : Int} {t : List Char} (h : Cut t (writeInt n)) :
    t = [] ∨ t = ['-'] ∨ ∃ m, t = writeInt m ∧ (0 ≤ m ∧ m ≤ n ∨ n ≤ m ∧ m ≤ 0) := by
  have hpart := (cut_iff_isPrefix.mp h).1
  unfold writeInt at hpart h
  by_cases hn : n < 0
  · rw [if_pos hn] at h
    obtain rfl | ⟨t, rfl, htail⟩ := cut_cons_iff.mp h
    · exact .inl rfl
    · by_cases hnil : t = []
      · exact .inr (.inl (by rw [hnil]))
      · obtain ⟨m, hm, rfl, hpos⟩ := isPrefix_toDigits (cut_iff_isPrefix.mp htail).1 hnil
        have hneg : -(m : Int) < 0 := by
          have := hpos (by omega)
          omega
        refine .inr (.inr ⟨-m, ?_, .inr ⟨by omega, by omega⟩⟩)
        rw [writeInt, if_pos hneg, Int.natAbs_neg, Int.natAbs_natCast]
  · rw [if_neg hn] at hpart
    by_cases hnil : t = []
    · exact .inl hnil
    · obtain ⟨m, hm, rfl, -⟩ := isPrefix_toDigits hpart hnil
      refine .inr (.inr ⟨m, ?_, .inl ⟨by omega, by omega⟩⟩)
      rw [writeInt, if_neg (by omega), Int.natAbs_natCast]

/-! ### Readers -/

namespace Reader

/-- Of every part of the text the reader says that it ended. -/
def Awaits (r : Reader α) (s : List Char) : Prop := ∀ t, Cut t s → Ended (r.run t)

/-- Of every part of the text the reader says that it ended, or takes all of it. -/
def Exhausts (r : Reader α) (s : List Char) : Prop :=
  ∀ t, Cut t s → Ended (r.run t) ∨ ∃ a, r.run t = .ok (a, [])

variable {r : Reader α} {s : List Char}

theorem Awaits.exhausts (h : r.Awaits s) : r.Exhausts s := fun t ht => .inl (h t ht)

theorem Awaits.mapOk (h : r.Awaits s) (f : α → Except ReadError β) : (r.mapOk f).Awaits s :=
  fun t ht => (h t ht).bind _

/-- Where more is to come, the reader misses its own end or leaves too little to what comes. -/
theorem Exhausts.run_cut {a : α} {t rest : List Char} (h : r.Exhausts s) (hreads : r.Reads s a)
    (hrest : EndsNumber rest) (hne : rest ≠ []) (ht : Cut t (s ++ rest)) :
    Ended (r.run t) ∨ ∃ b tail, r.run t = .ok (b, tail) ∧ Cut tail rest := by
  obtain hcut | ⟨tail, rfl, htail⟩ := ht.of_append
  · obtain hended | ⟨b, hb⟩ := h t hcut
    · exact .inl hended
    · obtain ⟨c, tail, rfl⟩ := List.exists_cons_of_ne_nil hne
      exact .inr ⟨b, [], hb, c, tail, rfl⟩
  · exact .inr ⟨a, tail, hreads tail (htail.endsNumber hrest), htail⟩

theorem awaits_boolean (value : Bool) : boolean.Awaits (writeBoolean value) := by
  intro t ht
  cases value with
  | false =>
    obtain rfl | ⟨tail, rfl, htail⟩ := cut_cons_iff.mp ht
    · exact ⟨_, rfl, rfl⟩
    · exact (ended_expectLetters htail).bind _
  | true =>
    obtain rfl | ⟨tail, rfl, htail⟩ := cut_cons_iff.mp ht
    · exact ⟨_, rfl, rfl⟩
    · exact (ended_expectLetters htail).bind _

theorem awaits_chars (expected : Expected) (chars : List Char) :
    (Reader.chars expected).Awaits (writeText chars) := by
  intro t ht
  obtain rfl | ⟨tail, rfl, htail⟩ := cut_cons_iff.mp ht
  · exact ⟨_, rfl, rfl⟩
  · exact ended_readChars_writeText htail

/-- Digits may be lost unnoticed, as long as the integers nearer to zero are of the type as well. -/
theorem exhausts_integer {expected : Expected} {convert : Int → Option α} {n : Int}
    (hlow : Int64.minValue.toInt ≤ n) (hhigh : n < UInt64.size)
    (hconvert : ∀ m, 0 ≤ m ∧ m ≤ n ∨ n ≤ m ∧ m ≤ 0 → (convert m).isSome) :
    (integer expected convert).Exhausts (writeInt n) := by
  intro t ht
  obtain rfl | rfl | ⟨m, rfl, hm⟩ := ht.of_writeInt
  · exact .inl ⟨_, rfl, rfl⟩
  · exact .inl ⟨_, rfl, rfl⟩
  · obtain ⟨a, ha⟩ := Option.isSome_iff_exists.mp (hconvert m hm)
    have hmin := Int64.toInt_minValue
    have hsize : UInt64.size = 18446744073709551616 := rfl
    have hreads : (integer expected convert).Reads (writeInt m) a :=
      reads_integer (by omega) (by omega) ha
    have hrun := hreads [] endsNumber_nil
    rw [List.append_nil] at hrun
    exact .inr ⟨a, hrun⟩

theorem awaits_null (h : Ended (r.run [])) : r.orNull.Awaits writeNull := by
  intro t ht
  obtain rfl | ⟨tail, rfl, htail⟩ := cut_cons_iff.mp ht
  · exact h.bind _
  · exact (ended_expectLetters htail).bind _

theorem Awaits.orNull (h : r.Awaits s) (hstart : StartsItem s) (hnull : ∀ tail, s ≠ 'n' :: tail) :
    r.orNull.Awaits s := by
  intro t ht
  have hrun := h t ht
  obtain ⟨c, tail, rfl, hblank, -⟩ := hstart
  have hc : c ≠ 'n' := fun heq => hnull tail (by rw [heq])
  obtain rfl | ⟨first, rfl, -⟩ := cut_cons_iff.mp ht
  · exact hrun.bind _
  · simp only [Reader.orNull, skipBlanks_cons hblank]
    split
    · next heq => exact absurd (List.cons.inj heq).1 hc
    · exact hrun.bind _

theorem ended_items_of_error {first : Bool} {t : List Char} (h : Ended (nextItem first t)) :
    Ended (r.items first t) := by
  obtain ⟨e, hnext, he⟩ := h
  refine ⟨e, ?_, he⟩
  rw [items]
  split <;> simp_all

/-- The cut falls before an item, into it or after it. -/
theorem ended_items_of_cut {first : Bool} {lead t rest : List Char} {a : α}
    (hitem : r.Reads s a ∧ StartsItem s ∧ r.Exhausts s) (hlead : Ended (nextItem first lead))
    (hnext : ∀ item, StartsItem item → nextItem first (lead ++ item) = .ok (true, item))
    (hends : EndsNumber rest) (hne : rest ≠ []) (ht : Cut t (s ++ rest))
    (hrest : ∀ tail, Cut tail rest → Ended (r.items false tail)) :
    Ended (r.items first (lead ++ t)) := by
  obtain ⟨hreads, hs, hexhausts⟩ := hitem
  obtain rfl | hstart := hs.of_cut ht
  · rw [List.append_nil]
    exact ended_items_of_error hlead
  · rw [items_of_next (hnext t hstart)]
    obtain hended | ⟨b, tail, hb, htail⟩ := hexhausts.run_cut hreads hends hne ht
    · exact hended.bind _
    · rw [hb]
      exact (hrest tail htail).map _

theorem ended_items {texts : List (List Char)} {list : List α}
    (h : List.Forall₂ (fun s a => r.Reads s a ∧ StartsItem s ∧ r.Exhausts s) texts list)
    {t : List Char} (ht : Cut t (texts.flatMap (',' :: ·) ++ [']'])) : Ended (r.items false t) := by
  induction h generalizing t with
  | nil =>
    obtain rfl := ht.eq_nil_of_singleton
    exact ended_items_of_error ⟨_, rfl, rfl⟩
  | @cons s a texts list hitem _ ih =>
    have hends := endsNumber_flatMap_comma texts [] (show continuesNumber ']' = false by decide)
    have hnext : ∀ item, StartsItem item → nextItem false ([','] ++ item) = .ok (true, item) := by
      intro item hstart
      simpa using nextItem_comma hstart []
    rw [List.flatMap_cons, List.append_assoc, List.cons_append] at ht
    obtain rfl | ⟨item, rfl, hitems⟩ := cut_cons_iff.mp ht
    · exact ended_items_of_error ⟨_, rfl, rfl⟩
    · exact ended_items_of_cut hitem ⟨_, rfl, rfl⟩ hnext hends (by simp) hitems fun _ => ih

theorem awaits_list {texts : List (List Char)} {list : List α}
    (h : List.Forall₂ (fun s a => r.Reads s a ∧ StartsItem s ∧ r.Exhausts s) texts list) :
    r.list.Awaits (writeArray texts) := by
  intro t ht
  rw [writeArray, List.cons_append] at ht
  obtain rfl | ⟨items, rfl, hitems⟩ := cut_cons_iff.mp ht
  · exact ⟨_, rfl, rfl⟩
  · change Ended (r.items true items)
    cases h with
    | nil =>
      obtain rfl := hitems.eq_nil_of_singleton
      exact ended_items_of_error ⟨_, rfl, rfl⟩
    | @cons s a texts list hitem hlist =>
      have hends := endsNumber_flatMap_comma texts [] (show continuesNumber ']' = false by decide)
      have hnext : ∀ item, StartsItem item → nextItem true ([] ++ item) = .ok (true, item) := by
        intro item hstart
        simpa using nextItem_first hstart []
      rw [intercalate_comma_cons, List.append_assoc] at hitems
      exact ended_items_of_cut hitem ⟨_, rfl, rfl⟩ hnext hends (by simp) hitems
        fun _ => ended_items hlist

end Reader

end HardwareKeys.Json

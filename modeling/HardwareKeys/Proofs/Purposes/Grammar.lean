import HardwareKeys.Proofs.Json.Decisive
import HardwareKeys.Proofs.Purposes.Text
import HardwareKeys.Proofs.Text.Hex
import HardwareKeys.Proofs.Text.Parts
import HardwareKeys.Purposes.Json

/-!
# The grammar of written purposes

Which texts are sets of purposes, said without the reader: a text is cut at the bars and each part trimmed to its core, which is a name or a hexadecimal number. The reader accepts these texts and no others. As the set is the union of what the cores stand for, it matters only which cores occur, not their order, how often they occur or the white space around them.
-/

namespace HardwareKeys

open Json

theorem Purpose.name_of_ofName? {name : List Char} {purpose : Purpose}
    (h : ofName? name = some purpose) : purpose.name.toList = name := by
  simpa using List.find?_some h

namespace Purposes

/-- The parts of the grammar, with the sets they stand for. -/
inductive SpellsPart : List Char → Purposes → Prop where
  | name (purpose : Purpose) : SpellsPart purpose.name.toList (single purpose)
  | bits {digits : List Char} {bits : UInt32} (h : Text.SpellsHex digits bits.toNat) :
      SpellsPart ('0' :: 'x' :: digits) ⟨bits⟩
  | signedBits {digits : List Char} {bits : UInt32} (h : Text.SpellsHex digits bits.toNat) :
      SpellsPart ('0' :: 'x' :: '+' :: digits) ⟨bits⟩

/-- What is wrong with a core that is no part of the grammar. -/
inductive HasFault : List Char → Fault → Prop where
  | emptyPart : HasFault [] .emptyPart
  | badHex {digits : List Char} (h : ∀ p, ¬SpellsPart ('0' :: 'x' :: digits) p) :
      HasFault ('0' :: 'x' :: digits) .badHex
  | unknownName {name : List Char} (hnil : name ≠ []) (hhex : ¬['0', 'x'] <+: name)
      (h : ∀ p, ¬SpellsPart name p) : HasFault name .unknownName

theorem withoutPlus_of_spellsHex {digits : List Char} {n : Nat} (h : Text.SpellsHex digits n) :
    withoutPlus digits = digits := by
  unfold withoutPlus
  split
  · rw [← Text.readHex_eq_some_iff] at h
    cases h
  · rfl

theorem readBits_eq_some_iff {digits : List Char} {bits : UInt32} :
    readBits digits = some bits ↔ Text.SpellsHex (withoutPlus digits) bits.toNat := by
  rw [readBits, Option.bind_eq_bind, Option.bind_eq_some_iff, ← Text.readHex_eq_some_iff]
  simp only [word32?_eq_some_iff, Int.natCast_inj, exists_eq_right]

theorem spellsPart_of_readBits {digits : List Char} {bits : UInt32}
    (h : readBits digits = some bits) : SpellsPart ('0' :: 'x' :: digits) ⟨bits⟩ := by
  rw [readBits_eq_some_iff] at h
  unfold withoutPlus at h
  split at h
  · exact .signedBits h
  · exact .bits h

theorem readPart_eq_ok_iff {core : List Char} {p : Purposes} :
    readPart core = .ok p ↔ SpellsPart core p := by
  constructor
  · intro h
    unfold readPart at h
    split at h
    · cases h
    · split at h
      · next bits hbits =>
        cases h
        exact spellsPart_of_readBits hbits
      · cases h
    · split at h
      · next purpose hpurpose =>
        cases h
        rw [← Purpose.name_of_ofName? hpurpose]
        exact .name purpose
      · cases h
  · intro h
    cases h with
    | name purpose => exact readPart_name purpose
    | bits h =>
      apply readPart_of_readBits
      rw [readBits_eq_some_iff, withoutPlus_of_spellsHex h]
      exact h
    | signedBits h => exact readPart_of_readBits (readBits_eq_some_iff.mpr h)

theorem SpellsPart.unique {core : List Char} {p q : Purposes} (hp : SpellsPart core p)
    (hq : SpellsPart core q) : p = q :=
  Except.ok.inj ((readPart_eq_ok_iff.mpr hp).symm.trans (readPart_eq_ok_iff.mpr hq))

theorem HasFault.not_spellsPart {core : List Char} {fault : Fault} (h : HasFault core fault)
    (p : Purposes) : ¬SpellsPart core p := by
  cases h with
  | emptyPart =>
    intro hp
    cases readPart_eq_ok_iff.mpr hp
  | badHex h => exact h p
  | unknownName _ _ h => exact h p

theorem HasFault.unique {core : List Char} {fault other : Fault} (h : HasFault core fault)
    (hother : HasFault core other) : fault = other := by
  cases h with
  | emptyPart =>
    cases hother with
    | emptyPart => rfl
    | unknownName hnil => exact absurd rfl hnil
  | badHex =>
    cases hother with
    | badHex => rfl
    | unknownName _ hhex => exact absurd ⟨_, rfl⟩ hhex
  | unknownName hnil hhex =>
    cases hother with
    | emptyPart => exact absurd rfl hnil
    | badHex => exact absurd ⟨_, rfl⟩ hhex
    | unknownName => rfl

theorem hasFault_of_readPart {core : List Char} {fault : Fault} (h : readPart core = .error fault) :
    HasFault core fault := by
  have hbad : ∀ p, ¬SpellsPart core p := by
    intro p hp
    cases h.symm.trans (readPart_eq_ok_iff.mpr hp)
  unfold readPart at h
  split at h
  · cases h
    exact .emptyPart
  · split at h
    · cases h
    · cases h
      exact .badHex hbad
  · next hnil hhex =>
    split at h
    · cases h
    · cases h
      refine .unknownName hnil ?_ hbad
      rintro ⟨digits, hdigits⟩
      exact hhex digits hdigits.symm

theorem readPart_eq_error_iff {core : List Char} {fault : Fault} :
    readPart core = .error fault ↔ HasFault core fault := by
  constructor
  · exact hasFault_of_readPart
  · intro h
    cases hread : readPart core with
    | ok p => exact absurd (readPart_eq_ok_iff.mp hread) (h.not_spellsPart p)
    | error found => rw [h.unique (hasFault_of_readPart hread)]

/-! ### All parts -/

/-- Each core is a part of the grammar, and `p` is the union of their sets. -/
def Means (cores : List (List Char)) (p : Purposes) : Prop :=
  ∃ values, List.Forall₂ SpellsPart cores values ∧ values.foldl union empty = p

/-- The first core that is no part of the grammar has the fault. -/
inductive FirstFault : List (List Char) → Fault → Prop where
  | here {core : List Char} {cores : List (List Char)} {fault : Fault} (h : HasFault core fault) :
      FirstFault (core :: cores) fault
  | later {core : List Char} {cores : List (List Char)} {fault : Fault} {p : Purposes}
      (hcore : SpellsPart core p) (h : FirstFault cores fault) : FirstFault (core :: cores) fault

theorem readParts_eq_ok_iff {start p : Purposes} {cores : List (List Char)} :
    readParts start cores = .ok p ↔
      ∃ values, List.Forall₂ SpellsPart cores values ∧ values.foldl union start = p := by
  induction cores generalizing start with
  | nil => simp [readParts, pure, Except.pure]
  | cons core cores ih =>
    constructor
    · intro h
      obtain ⟨q, hq, h⟩ := bind_eq_ok_iff.mp h
      obtain ⟨values, hvalues, hp⟩ := ih.mp h
      exact ⟨q :: values, .cons (readPart_eq_ok_iff.mp hq) hvalues, hp⟩
    · rintro ⟨_, _ | ⟨hq, hvalues⟩, hp⟩
      exact bind_eq_ok_iff.mpr ⟨_, readPart_eq_ok_iff.mpr hq, ih.mpr ⟨_, hvalues, hp⟩⟩

theorem readParts_eq_error_iff {start : Purposes} {cores : List (List Char)} {fault : Fault} :
    readParts start cores = .error fault ↔ FirstFault cores fault := by
  induction cores generalizing start with
  | nil =>
    constructor
    · intro h
      cases h
    · intro h
      cases h
  | cons core cores ih =>
    cases hcore : readPart core with
    | error found =>
      have hread : readParts start (core :: cores) = .error found := by
        rw [readParts, hcore]
        rfl
      have hfound := readPart_eq_error_iff.mp hcore
      rw [hread, Except.error.injEq]
      constructor
      · rintro rfl
        exact .here hfound
      · intro h
        cases h with
        | here h => exact hfound.unique h
        | later hgood => exact absurd hgood (hfound.not_spellsPart _)
    | ok q =>
      have hread : readParts start (core :: cores) = readParts (start.union q) cores := by
        rw [readParts, hcore]
        rfl
      have hgood := readPart_eq_ok_iff.mp hcore
      rw [hread, ih]
      constructor
      · exact .later hgood
      · intro h
        cases h with
        | here h => exact absurd hgood (h.not_spellsPart q)
        | later _ h => exact h

theorem exists_forall₂_spellsPart {cores : List (List Char)} :
    (∃ values, List.Forall₂ SpellsPart cores values) ↔ ∀ core ∈ cores, ∃ p, SpellsPart core p := by
  simpa only [mapM_eq_ok_iff, readPart_eq_ok_iff] using exists_mapM_eq_ok_iff (f := readPart)

theorem mem_of_forall₂_spellsPart {cores : List (List Char)} {values : List Purposes}
    (h : List.Forall₂ SpellsPart cores values) {p : Purposes} :
    p ∈ values ↔ ∃ core ∈ cores, SpellsPart core p := by
  induction h with
  | nil => simp
  | @cons core q cores values hcore _ ih =>
    have hq : p = q ↔ SpellsPart core p := by
      constructor
      · rintro rfl
        exact hcore
      · exact fun hp => hp.unique hcore
    simp only [List.mem_cons, hq, ih, exists_eq_or_imp]

/-- The set of the cores, bit by bit. -/
theorem means_iff {cores : List (List Char)} {p : Purposes} :
    Means cores p ↔ (∀ core ∈ cores, ∃ q, SpellsPart core q) ∧
      ∀ i, p.bit i = true ↔ ∃ q, (∃ core ∈ cores, SpellsPart core q) ∧ q.bit i = true := by
  have hbit : ∀ {values}, List.Forall₂ SpellsPart cores values → ∀ i,
      (values.foldl union empty).bit i = true ↔
        ∃ q, (∃ core ∈ cores, SpellsPart core q) ∧ q.bit i = true := by
    intro values hvalues i
    simp only [bit_foldl_union, bit_empty, Bool.false_or, List.any_eq_true,
      mem_of_forall₂_spellsPart hvalues]
  constructor
  · rintro ⟨values, hvalues, rfl⟩
    exact ⟨exists_forall₂_spellsPart.mp ⟨values, hvalues⟩, hbit hvalues⟩
  · rintro ⟨hspelled, hp⟩
    obtain ⟨values, hvalues⟩ := exists_forall₂_spellsPart.mpr hspelled
    refine ⟨values, hvalues, ext_bit fun i => ?_⟩
    rw [Bool.eq_iff_iff, hbit hvalues, hp]

/-- Neither the order of the cores nor their number matters. -/
theorem means_congr {cores others : List (List Char)} (h : ∀ core, core ∈ cores ↔ core ∈ others)
    {p : Purposes} : Means cores p ↔ Means others p := by
  simp only [means_iff, h]

theorem ofText_of_isWhite {s : List Char} (h : Text.IsWhite s) : ofText s = .ok empty := by
  rw [ofText, if_pos (Text.trim_eq_nil_iff.mpr h)]
  rfl

theorem ofText_of_hasCores {s : List Char} {cores : List (List Char)} (hwhite : ¬Text.IsWhite s)
    (h : Text.HasCores '|' s cores) : ofText s = readParts empty cores := by
  rw [ofText, if_neg (mt Text.trim_eq_nil_iff.mp hwhite), Text.hasCores_iff.mp h]

theorem ofChars_eq_ok_iff {s : List Char} {p : Purposes} : ofChars s = .ok p ↔ ofText s = .ok p := by
  unfold ofChars
  split <;> simp [*]

theorem ofChars_eq_error_iff {s : List Char} {e : ReadError} :
    ofChars s = .error e ↔ ∃ fault, e = .purposes fault ∧ ofText s = .error fault := by
  unfold ofChars
  split <;> simp [*, eq_comm]

theorem readAll_of_spellsText {item : Item} {s : List Char} (h : item.SpellsText s) :
    codec.readAll item.text = ofChars s :=
  ((Reader.settles_spellsText h).mapOk ofChars).readAll_item
    ((Reader.stable_chars .purposes).mapOk ofChars)

theorem readAll_of_isWhite {item : Item} {s : List Char} (h : item.SpellsText s)
    (hwhite : Text.IsWhite s) : codec.readAll item.text = .ok empty := by
  rw [readAll_of_spellsText h, ofChars_eq_ok_iff, ofText_of_isWhite hwhite]

section Cores

variable {item : Item} {s : List Char} {cores : List (List Char)}

theorem readAll_eq_ok_iff (h : item.SpellsText s) (hwhite : ¬Text.IsWhite s)
    (hcores : Text.HasCores '|' s cores) {p : Purposes} :
    codec.readAll item.text = .ok p ↔ Means cores p := by
  rw [readAll_of_spellsText h, ofChars_eq_ok_iff, ofText_of_hasCores hwhite hcores,
    readParts_eq_ok_iff]
  rfl

theorem readAll_eq_error_iff (h : item.SpellsText s) (hwhite : ¬Text.IsWhite s)
    (hcores : Text.HasCores '|' s cores) {e : ReadError} :
    codec.readAll item.text = .error e ↔ ∃ fault, e = .purposes fault ∧ FirstFault cores fault := by
  simp only [readAll_of_spellsText h, ofChars_eq_error_iff, ofText_of_hasCores hwhite hcores,
    readParts_eq_error_iff]

end Cores

/-- A text of white space is the empty set. Any other is cut at the bars in one way, and read as the union of what the cores stand for, unless one is no part of the grammar: the fault is then that of the first such core. The result depends on the list of cores alone, and the set only on which cores there are. -/
theorem readAll_grammar :
    (∀ (item : Item) (s : List Char), item.SpellsText s → Text.IsWhite s →
      codec.readAll item.text = .ok empty) ∧
    (∀ (item : Item) (s : List Char), item.SpellsText s → ¬Text.IsWhite s →
      (∃! cores, Text.HasCores '|' s cores) ∧
      ∀ cores, Text.HasCores '|' s cores →
        (∀ p, codec.readAll item.text = .ok p ↔ Means cores p) ∧
        ((∃ p, codec.readAll item.text = .ok p) ↔ ∀ core ∈ cores, ∃ p, SpellsPart core p) ∧
        ∀ e, codec.readAll item.text = .error e ↔
          ∃ fault, e = .purposes fault ∧ FirstFault cores fault) ∧
    ∀ (item other : Item) (s t : List Char), item.SpellsText s → other.SpellsText t →
      ¬Text.IsWhite s → ¬Text.IsWhite t →
      ∀ cores others, Text.HasCores '|' s cores → Text.HasCores '|' t others →
        (cores = others → codec.readAll item.text = codec.readAll other.text) ∧
        ((∀ core, core ∈ cores ↔ core ∈ others) →
          ∀ p, codec.readAll item.text = .ok p ↔ codec.readAll other.text = .ok p) := by
  refine ⟨fun _ _ => readAll_of_isWhite, fun item s h hwhite => ⟨?unique, fun cores hcores =>
    ⟨fun p => readAll_eq_ok_iff h hwhite hcores, ?accepted, fun e =>
      readAll_eq_error_iff h hwhite hcores⟩⟩,
    fun item other s t h hother hs ht cores others hcores hothers => ⟨?same, fun hmem p => ?members⟩⟩
  case unique =>
    simp only [Text.hasCores_iff, existsUnique_eq']
  case accepted =>
    simp only [readAll_eq_ok_iff h hwhite hcores, ← exists_forall₂_spellsPart, Means]
    simp
  case same =>
    rintro rfl
    rw [readAll_of_spellsText h, readAll_of_spellsText hother, ofChars, ofChars,
      ofText_of_hasCores hs hcores, ofText_of_hasCores ht hothers]
  case members =>
    rw [readAll_eq_ok_iff h hs hcores, readAll_eq_ok_iff hother ht hothers, means_congr hmem]

theorem readAll_mixedText :
    codec.readAll (writeText "\u3000 ".toList) = .ok empty ∧
    codec.readAll (writeText "SIGN|0x+1Ab".toList) = .ok ⟨0x1AF⟩ ∧
    codec.readAll (writeText " 0x+1Ab\t|\u00a0SIGN | SIGN".toList) = .ok ⟨0x1AF⟩ ∧
    codec.readAll (writeText "SIGN|0X1|".toList) = .error (.purposes .unknownName) := by
  obtain ⟨hblank, hread, hsame⟩ := readAll_grammar
  have hcores : Text.HasCores '|' "SIGN|0x+1Ab".toList ["SIGN".toList, "0x+1Ab".toList] :=
    Text.hasCores_iff.mpr (by decide)
  have hothers : Text.HasCores '|' " 0x+1Ab\t|\u00a0SIGN | SIGN".toList
      ["0x+1Ab".toList, "SIGN".toList, "SIGN".toList] :=
    Text.hasCores_iff.mpr (by decide)
  have hbad : Text.HasCores '|' "SIGN|0X1|".toList ["SIGN".toList, "0X1".toList, []] :=
    Text.hasCores_iff.mpr (by decide)
  have hspelled : SpellsPart "0x+1Ab".toList ⟨0x1AB⟩ :=
    .signedBits (Text.readHex_eq_some_iff.mp (by decide))
  have hmeans : Means ["SIGN".toList, "0x+1Ab".toList] ⟨0x1AF⟩ :=
    ⟨[single .sign, ⟨0x1AB⟩], .cons (.name .sign) (.cons hspelled .nil), by decide⟩
  have hfault : HasFault "0X1".toList .unknownName := readPart_eq_error_iff.mp (by decide)
  have hitem : ∀ s, Item.text ⟨.none, writeText s, .none⟩ = writeText s := fun s =>
    List.append_nil _
  have hspells := spellsText_writeText .none .none
  refine ⟨?blank, ?once, ?again, ?bad⟩
  case blank =>
    rw [← hitem]
    exact hblank _ _ (hspells _) (by decide)
  case once =>
    rw [← hitem]
    obtain ⟨-, hresult⟩ := hread _ _ (hspells "SIGN|0x+1Ab".toList) (by decide)
    exact ((hresult _ hcores).1 _).mpr hmeans
  case again =>
    rw [← hitem]
    obtain ⟨-, hresult⟩ := hread _ _ (hspells "SIGN|0x+1Ab".toList) (by decide)
    have hmembers := (hsame _ _ _ _ (hspells "SIGN|0x+1Ab".toList)
      (hspells " 0x+1Ab\t|\u00a0SIGN | SIGN".toList) (by decide) (by decide) _ _ hcores hothers).2
    refine (hmembers (fun core => ?_) _).mp (((hresult _ hcores).1 _).mpr hmeans)
    simp [or_comm]
  case bad =>
    rw [← hitem]
    obtain ⟨-, hresult⟩ := hread _ _ (hspells "SIGN|0X1|".toList) (by decide)
    exact ((hresult _ hbad).2.2 _).mpr ⟨_, rfl, .later (.name .sign) (.here hfault)⟩

end Purposes

end HardwareKeys

import HardwareKeys.Proofs.Json.Faults

/-!
# Arrays and objects of a record

An array gives the fields their values by position, an object by key. While no field is given twice, the two are the same: the array passes the mentions that the object of the first keys makes, and an array of full length leaves no field to a default.
-/

namespace HardwareKeys.Json.Record

variable {R : Record}

/-- The members have the keys of all fields, in their order, and the values of the items. -/
structure Pairs (R : Record) (members : List NamedMember) (items : List Item) : Prop where
  names : members.map NamedMember.name = R.fields.map fun field => (R.key field).toList
  values : members.map (fun m => m.member.item.value) = items.map Item.value

theorem Pairs.isValue {members : List NamedMember} {items : List Item}
    (h : R.Pairs members items) : ∀ item ∈ items, IsValue item.value := by
  rw [← List.forall_mem_map (f := Item.value) (P := IsValue), ← h.values, List.forall_mem_map]
  exact fun m _ => m.isValue

theorem mentions_eq_zip (hkeys : Function.Injective R.key) {members : List NamedMember}
    {fields : List R.Field}
    (hnames : members.map NamedMember.name = fields.map fun field => (R.key field).toList) :
    R.mentions members = fields.zip (members.map fun m => m.member.item.value) := by
  induction members generalizing fields with
  | nil =>
    rw [List.map_nil, List.zip_nil_right]
    rfl
  | cons m members ih =>
    cases fields with
    | nil => cases hnames
    | cons field fields =>
      obtain ⟨hname, hnames⟩ := List.cons.inj hnames
      have hfield : R.ofKey? m.name = some field := by rw [hname, ofKey?_key hkeys]
      rw [List.map_cons, List.zip_cons_cons, ← ih hnames]
      exact List.filterMap_cons_some (by rw [hfield]; rfl)

/-- Fields that are new to the draft can be given their values in either way. -/
theorem place_eq_foldlM {fields : List R.Field} {texts : List (List Char)} {draft : R.Draft}
    (hlength : texts.length ≤ fields.length) (hnodup : fields.Nodup)
    (hnew : ∀ field ∈ fields, draft field = none) :
    draft.place fields texts = (fields.zip texts).foldlM Draft.mention draft := by
  induction fields generalizing texts draft with
  | nil =>
    obtain rfl := List.length_eq_zero_iff.mp (Nat.le_zero.mp hlength)
    rfl
  | cons field fields ih =>
    cases texts with
    | nil => rfl
    | cons text texts =>
      obtain ⟨hnotMem, hnodup⟩ := List.nodup_cons.mp hnodup
      obtain ⟨hfield, hfields⟩ := List.forall_mem_cons.mp hnew
      rw [Draft.place, List.zip_cons_cons, List.foldlM_cons]
      simp only [Draft.mention, hfield]
      cases (R.codec field).readAll text with
      | error e => rfl
      | ok value =>
        exact ih (Nat.le_of_succ_le_succ hlength) hnodup (Draft.set_eq_none hnotMem hfields value)

theorem place_empty {texts : List (List Char)} (hnodup : R.fields.Nodup)
    (hlength : texts.length ≤ R.fields.length) :
    Draft.place .empty R.fields texts =
      (R.fields.zip texts).foldlM Draft.mention (.empty : R.Draft) :=
  place_eq_foldlM hlength hnodup fun _ _ => rfl

/-- Once every field has been mentioned there is nothing to fill in. -/
theorem complete_of_isSome {draft : R.Draft} (h : ∀ field, (draft field).isSome) :
    ∃ full, ∀ default, draft.complete default = .ok full :=
  ⟨fun field => (draft field).get (h field), fun default =>
    Draft.complete_of_full fun field => by simp [Option.or_of_isSome (h field)]⟩

theorem cutOff_eq_close {draft : R.Draft} (h : ∀ field, (draft field).isSome) :
    draft.cutOff = draft.close := by
  obtain ⟨full, hfull⟩ := complete_of_isSome h
  rw [Draft.cutOff, Draft.close, hfull, hfull, mapError_ok, mapError_ok]

/-- An array and an object of the same values come to the same. -/
theorem place_eq_foldlM_of_pairs (hkeys : Function.Injective R.key) (hnodup : R.fields.Nodup)
    {members : List NamedMember} {items : List Item} (hpairs : R.Pairs members items) :
    (Draft.place .empty R.fields (items.map Item.value) >>= Draft.cutOff) =
      ((R.mentions members).foldlM Draft.mention .empty >>= Draft.close) := by
  have hnames := congrArg List.length hpairs.names
  have hvalues := congrArg List.length hpairs.values
  simp only [List.length_map] at hnames hvalues
  have hlength : (items.map Item.value).length = R.fields.length := by
    rw [List.length_map, ← hvalues, hnames]
  have hmentions := mentions_eq_zip hkeys hpairs.names
  rw [hpairs.values] at hmentions
  have hfields : (R.mentions members).map Prod.fst = R.fields := by
    rw [hmentions, List.map_fst_zip hlength.ge]
  rw [place_empty hnodup hlength.le, ← hmentions]
  cases hfold : (R.mentions members).foldlM Draft.mention (.empty : R.Draft) with
  | error e => rfl
  | ok draft =>
    refine cutOff_eq_close fun field => (isSome_foldlM hfold field).mpr (.inr ?_)
    rw [hfields]
    exact R.mem_fields field

/-! ### Arrays that end early -/

/-- The first field that an array of `n` values leaves without a value. -/
def firstCutOff? (R : Record) (n : Nat) : Option R.Field :=
  R.fields.find? fun field => field ∉ R.fields.take n ∧ (R.whenCutOff field).isNone

theorem exists_place {fields : List R.Field} {texts : List (List Char)} {draft : R.Draft}
    (hlength : texts.length ≤ fields.length)
    (hvalues : ∀ m ∈ fields.zip texts, ∃ value, (R.codec m.1).readAll m.2 = .ok value) :
    ∃ last, draft.place fields texts = .ok last := by
  induction fields generalizing texts draft with
  | nil =>
    obtain rfl := List.length_eq_zero_iff.mp (Nat.le_zero.mp hlength)
    exact ⟨draft, rfl⟩
  | cons field fields ih =>
    cases texts with
    | nil => exact ⟨draft, rfl⟩
    | cons text texts =>
      obtain ⟨⟨value, hvalue⟩, hvalues⟩ := List.forall_mem_cons.mp hvalues
      simp only [Draft.place, hvalue]
      exact ih (Nat.le_of_succ_le_succ hlength) hvalues

theorem cutOff_of_isSome_iff {draft : R.Draft} {n : Nat} {field : R.Field}
    (h : ∀ field, (draft field).isSome ↔ field ∈ R.fields.take n)
    (hfield : R.firstCutOff? n = some field) :
    draft.cutOff = .error (.invalidLength (R.fields.idxOf field) R.name R.fields.length) := by
  have hfind : R.fields.find? (fun field => ((draft field).or (R.whenCutOff field)).isNone) =
      some field := by
    rw [← hfield, firstCutOff?]
    congr 1
    funext field
    simp only [← h]
    cases draft field <;> cases R.whenCutOff field <;> simp
  rw [Draft.cutOff, complete_eq_error_iff.mpr hfind]
  rfl

theorem place_cutOff {texts : List (List Char)} {field : R.Field} (hnodup : R.fields.Nodup)
    (hlength : texts.length ≤ R.fields.length)
    (hvalues : ∀ m ∈ R.fields.zip texts, ∃ value, (R.codec m.1).readAll m.2 = .ok value)
    (hfield : R.firstCutOff? texts.length = some field) :
    (Draft.place .empty R.fields texts >>= Draft.cutOff) =
      .error (.invalidLength (R.fields.idxOf field) R.name R.fields.length) := by
  obtain ⟨last, hlast⟩ : ∃ last : R.Draft, Draft.place .empty R.fields texts = .ok last :=
    exists_place hlength hvalues
  have hfold := hlast
  rw [place_empty hnodup hlength] at hfold
  have hfields : (R.fields.zip texts).map Prod.fst = R.fields.take texts.length := by
    rw [List.zip_eq_zip_take_min, List.map_fst_zip (by simp), Nat.min_eq_right hlength]
  rw [hlast]
  refine cutOff_of_isSome_iff (fun field => (isSome_foldlM hfold field).trans ?_) hfield
  simp [Draft.empty, hfields]

section Decisive

variable {α : Type} {f : R.Full → α} {encode : α → Except WriteError R.Full}
  (hcodec : ∀ field, (R.codec field).read.Decisive)
include hcodec

/-- An array is read for the values at its positions. -/
theorem settles_positions (hfields : R.fields ≠ []) {items : List Item} {s : List Char}
    (harray : SpellsArray items s) (hitems : ∀ item ∈ items, IsValue item.value) :
    (R.toCodec.via (fun full => .ok (f full)) encode).read.Settles s
      (f <$> (Draft.place .empty R.fields (items.map Item.value) >>= Draft.cutOff)) :=
  (settles_array hcodec hfields harray hitems).mapOk fun full => .ok (f full)

theorem readAll_array (hfields : R.fields ≠ []) {items : List Item} {item : Item}
    (harray : SpellsArray items item.value) (hitems : ∀ item ∈ items, IsValue item.value) :
    (R.toCodec.via (fun full => .ok (f full)) encode).readAll item.text =
      f <$> (Draft.place .empty R.fields (items.map Item.value) >>= Draft.cutOff) := by
  have hstable : R.toCodec.read.Stable := stable_reader fun field => (hcodec field).toStable
  exact (settles_positions hcodec hfields harray hitems).readAll_item
    (Codec.stable_via hstable _ encode)

/-- What a record says of an array, it says of the object with the same values. -/
theorem exists_settles_pairs (hkeys : Function.Injective R.key) (hnodup : R.fields.Nodup)
    (hfields : R.fields ≠ []) {members : List NamedMember} {items : List Item}
    (hpairs : R.Pairs members items) {array object : List Char} (harray : SpellsArray items array)
    (hobject : SpellsObject (members.map NamedMember.member) object) :
    ∃ x, (R.toCodec.via (fun full => .ok (f full)) encode).read.Settles array x ∧
      (R.toCodec.via (fun full => .ok (f full)) encode).read.Settles object x := by
  refine ⟨_, settles_positions hcodec hfields harray hpairs.isValue, ?_⟩
  rw [place_eq_foldlM_of_pairs hkeys hnodup hpairs]
  exact settles_mentions hcodec hobject

end Decisive

end HardwareKeys.Json.Record

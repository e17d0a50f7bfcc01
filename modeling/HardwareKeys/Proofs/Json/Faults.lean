import HardwareKeys.Proofs.Json.Mentions

/-!
# The error of an object

Several things can be wrong with an object at once. The error is that of the first entry that is at fault, in the order in which the object is read: an entry that mentions a field again, or one whose value is none of its field. Only if no entry is at fault are missing fields looked for, in the order of the record.
-/

namespace HardwareKeys.Json

theorem SpellsChar.isBody_append {form s : List Char} {c : Char} (h : SpellsChar form c)
    (hs : IsBody s) : IsBody (form ++ s) := by
  cases h with
  | plain h => exact .cons (.plain h) hs
  | escape h => exact .cons (.escape (by rw [h]; rfl)) hs
  | unit h => exact .cons (.unit h) hs
  | pair hhigh hlow =>
    have hpair : IsBody ('\\' :: 'u' :: _ ++ ('\\' :: 'u' :: _ ++ s)) :=
      .cons (.unit hhigh) (.cons (.unit hlow) hs)
    simpa using hpair

theorem SpellsChars.isBody {s chars : List Char} (h : SpellsChars s chars) : IsBody s := by
  induction h with
  | nil => exact .nil
  | cons hform _ ih => exact hform.isBody_append ih

/-- A member whose key is a text of the characters `name`. Half a surrogate pair stands for no character. -/
structure NamedMember where
  member : Member
  name : List Char
  spells : SpellsChars member.key name
  isValue : IsValue member.item.value

theorem NamedMember.isComplete (m : NamedMember) : Record.IsComplete m.member :=
  ⟨m.spells.isBody, m.isValue⟩

namespace Record

variable {R : Record}

/-- The fields that the members mention, with their values. Unknown keys mention nothing. -/
def mentions (R : Record) (members : List NamedMember) : List R.Mention :=
  members.filterMap fun m => (R.ofKey? m.name).map fun field => (field, m.member.item.value)

theorem foldlM_pass (members : List NamedMember) (draft : R.Draft) :
    (members.map NamedMember.member).foldlM Draft.pass draft =
      (R.mentions members).foldlM Draft.mention draft := by
  induction members generalizing draft with
  | nil => rfl
  | cons m members ih =>
    rw [List.map_cons, List.foldlM_cons, Draft.pass, m.spells.bodyChars_eq]
    cases hfield : R.ofKey? m.name with
    | none =>
      have hmentions : R.mentions (m :: members) = R.mentions members :=
        List.filterMap_cons_none (by rw [hfield]; rfl)
      rw [hmentions, ← ih]
      simp [bind, Except.bind, pure, Except.pure, hfield]
    | some field =>
      have hmentions : R.mentions (m :: members) =
          (field, m.member.item.value) :: R.mentions members :=
        List.filterMap_cons_some (by rw [hfield]; rfl)
      rw [hmentions, List.foldlM_cons]
      simp only [bind, Except.bind, hfield]
      cases draft.mention (field, m.member.item.value) with
      | error e => rfl
      | ok next => exact ih next

/-- What is wrong with a mention after the earlier ones: its field has been mentioned, or it is new and the value is none of the field. -/
inductive Faulty (earlier : List R.Mention) : R.Mention → ReadError → Prop where
  | repeated {field : R.Field} {value : List Char} (h : field ∈ earlier.map Prod.fst) :
      Faulty earlier (field, value) (.duplicateField (R.key field))
  | invalid {field : R.Field} {value : List Char} {e : ReadError}
      (h : field ∉ earlier.map Prod.fst) (hvalue : (R.codec field).readAll value = .error e) :
      Faulty earlier (field, value) e

/-- Nothing is wrong with any of the mentions. -/
def Faultless (mentions : List R.Mention) : Prop :=
  ∀ earlier m later e, mentions = earlier ++ m :: later → ¬Faulty earlier m e

/-- The fields without a default, in their order. -/
def required (R : Record) : List R.Field := R.fields.filter fun field => (R.whenAbsent field).isNone

/-- The error of an object with the mentions: that of the first one at fault, or if there is none, that of the first required field that is not mentioned. -/
inductive Blames (mentions : List R.Mention) : ReadError → Prop where
  | entry {earlier later : List R.Mention} {m : R.Mention} {e : ReadError}
      (h : mentions = earlier ++ m :: later) (hearlier : Faultless earlier)
      (hfaulty : Faulty earlier m e) : Blames mentions e
  | missing {field : R.Field} (h : Faultless mentions)
      (hfield : R.required.find? (fun field => field ∉ mentions.map Prod.fst) = some field) :
      Blames mentions (.missingField (R.key field))

/-- A fold fails at the first element that its step refuses. -/
theorem foldlM_eq_error_iff {ε α β : Type} {f : β → α → Except ε β} {list : List α} {b : β}
    {e : ε} : list.foldlM f b = .error e ↔ ∃ first a later c, list = first ++ a :: later ∧
      first.foldlM f b = .ok c ∧ f c a = .error e := by
  constructor
  · intro h
    induction list generalizing b with
    | nil => cases h
    | cons a list ih =>
      rw [List.foldlM_cons] at h
      cases ha : f b a with
      | error fault =>
        rw [ha] at h
        cases h
        exact ⟨[], a, list, b, rfl, rfl, ha⟩
      | ok next =>
        rw [ha] at h
        obtain ⟨first, other, later, c, rfl, hfirst, hother⟩ := ih h
        refine ⟨a :: first, other, later, c, rfl, ?_, hother⟩
        rwa [List.foldlM_cons, ha]
  · rintro ⟨first, a, later, c, rfl, hfirst, ha⟩
    rw [List.foldlM_append, hfirst]
    exact congrArg (· >>= fun next => later.foldlM f next) ha

/-- The draft has values for the fields that have been mentioned. -/
theorem isSome_foldlM {mentions : List R.Mention} {draft last : R.Draft}
    (h : mentions.foldlM Draft.mention draft = .ok last) (field : R.Field) :
    (last field).isSome ↔ (draft field).isSome ∨ field ∈ mentions.map Prod.fst := by
  induction mentions generalizing draft with
  | nil =>
    cases h
    simp
  | cons m mentions ih =>
    rw [List.foldlM_cons] at h
    obtain ⟨next, hnext, h⟩ := bind_eq_ok_iff.mp h
    obtain ⟨-, value, -, rfl⟩ := Draft.mention_eq_ok_iff.mp hnext
    rw [ih h, List.map_cons, List.mem_cons, ← or_assoc]
    by_cases hfield : field = m.1
    · subst hfield
      simp [Draft.set_self]
    · simp [Draft.set_of_ne _ _ hfield, hfield]

theorem mention_eq_error_iff {earlier : List R.Mention} {draft : R.Draft}
    (h : earlier.foldlM Draft.mention .empty = .ok draft) {m : R.Mention} {e : ReadError} :
    draft.mention m = .error e ↔ Faulty earlier m e := by
  obtain ⟨field, value⟩ := m
  have hfield : (draft field).isSome ↔ field ∈ earlier.map Prod.fst := by
    simpa [Draft.empty] using isSome_foldlM h field
  unfold Draft.mention
  dsimp only
  by_cases hmentioned : field ∈ earlier.map Prod.fst
  · rw [if_pos (hfield.mpr hmentioned)]
    constructor
    · rintro ⟨⟩
      exact .repeated hmentioned
    · rintro (_ | ⟨hnew, -⟩)
      · rfl
      · exact absurd hmentioned hnew
  · rw [if_neg (mt hfield.mp hmentioned)]
    constructor
    · intro herror
      refine .invalid hmentioned ?_
      cases hvalue : (R.codec field).readAll value with
      | error fault =>
        rw [hvalue] at herror
        cases herror
        rfl
      | ok value =>
        rw [hvalue] at herror
        cases herror
    · rintro (hagain | ⟨-, hvalue⟩)
      · exact absurd hagain hmentioned
      · rw [hvalue]
        rfl

theorem faultless_iff {mentions : List R.Mention} :
    Faultless mentions ↔ ∃ draft, mentions.foldlM Draft.mention .empty = .ok draft := by
  constructor
  · intro h
    cases hfold : mentions.foldlM Draft.mention (.empty : R.Draft) with
    | ok draft => exact ⟨draft, rfl⟩
    | error e =>
      obtain ⟨earlier, m, later, draft, heq, hearlier, hm⟩ := foldlM_eq_error_iff.mp hfold
      exact absurd ((mention_eq_error_iff hearlier).mp hm) (h earlier m later e heq)
  · rintro ⟨draft, hdraft⟩ earlier m later e rfl hfaulty
    rw [List.foldlM_append] at hdraft
    obtain ⟨before, hearlier, hdraft⟩ := bind_eq_ok_iff.mp hdraft
    rw [List.foldlM_cons] at hdraft
    obtain ⟨after, hafter, -⟩ := bind_eq_ok_iff.mp hdraft
    rw [(mention_eq_error_iff hearlier).mpr hfaulty] at hafter
    cases hafter

theorem complete_eq_error_iff {draft default : R.Draft} {field : R.Field} :
    draft.complete default = .error field ↔
      R.fields.find? (fun field => ((draft field).or (default field)).isNone) = some field := by
  unfold Draft.complete
  split
  · next h => rw [h, Except.error.injEq, Option.some.injEq]
  · next h => simp only [h, reduceCtorEq]

theorem foldlM_mention_eq_error_iff {mentions : List R.Mention} {e : ReadError} :
    mentions.foldlM Draft.mention (.empty : R.Draft) = .error e ↔ ∃ earlier m later,
      mentions = earlier ++ m :: later ∧ Faultless earlier ∧ Faulty earlier m e := by
  rw [foldlM_eq_error_iff]
  constructor
  · rintro ⟨earlier, m, later, draft, heq, hearlier, hm⟩
    exact ⟨earlier, m, later, heq, faultless_iff.mpr ⟨draft, hearlier⟩,
      (mention_eq_error_iff hearlier).mp hm⟩
  · rintro ⟨earlier, m, later, heq, hearlier, hfaulty⟩
    obtain ⟨draft, hdraft⟩ := faultless_iff.mp hearlier
    exact ⟨earlier, m, later, draft, heq, hdraft, (mention_eq_error_iff hdraft).mpr hfaulty⟩

theorem close_eq_error_iff {mentions : List R.Mention} {draft : R.Draft}
    (h : mentions.foldlM Draft.mention .empty = .ok draft) {e : ReadError} :
    draft.close = .error e ↔ ∃ field,
      R.required.find? (fun field => field ∉ mentions.map Prod.fst) = some field ∧
        .missingField (R.key field) = e := by
  have hfind : R.required.find? (fun field => field ∉ mentions.map Prod.fst) =
      R.fields.find? fun field => ((draft field).or (R.whenAbsent field)).isNone := by
    rw [required, List.find?_filter]
    congr 1
    funext field
    have hfield : (draft field).isSome ↔ field ∈ mentions.map Prod.fst := by
      simpa [Draft.empty] using isSome_foldlM h field
    simp only [← hfield]
    cases draft field <;> cases R.whenAbsent field <;> simp
  rw [hfind, Draft.close]
  simp only [← complete_eq_error_iff]
  cases draft.complete R.whenAbsent <;> simp [Except.mapError]

/-- An object is refused for what its mentions are to blame for. -/
theorem foldlM_close_eq_error_iff {mentions : List R.Mention} {e : ReadError} :
    (mentions.foldlM Draft.mention .empty >>= Draft.close) = .error e ↔ Blames mentions e := by
  have hfold := @foldlM_mention_eq_error_iff R mentions e
  cases hdraft : mentions.foldlM Draft.mention (.empty : R.Draft) with
  | error fault =>
    have hnone : ¬Faultless mentions := by
      rw [faultless_iff, hdraft]
      exact nofun
    rw [hdraft, Except.error.injEq] at hfold
    change Except.error fault = .error e ↔ _
    rw [Except.error.injEq]
    refine hfold.trans ⟨?_, ?_⟩
    · rintro ⟨earlier, m, later, heq, hearlier, hfaulty⟩
      exact .entry heq hearlier hfaulty
    · rintro (⟨heq, hearlier, hfaulty⟩ | ⟨hfaultless, -⟩)
      · exact ⟨_, _, _, heq, hearlier, hfaulty⟩
      · exact absurd hfaultless hnone
  | ok draft =>
    have hfaultless : Faultless mentions := faultless_iff.mpr ⟨draft, hdraft⟩
    refine (close_eq_error_iff hdraft).trans ⟨?_, ?_⟩
    · rintro ⟨field, hfield, rfl⟩
      exact .missing hfaultless hfield
    · rintro (⟨heq, -, hfaulty⟩ | ⟨-, hfield⟩)
      · exact absurd hfaulty (hfaultless _ _ _ _ heq)
      · exact ⟨_, hfield, rfl⟩

theorem or_eq_of_complete {draft default : R.Draft} {full : R.Full}
    (h : draft.complete default = .ok full) (field : R.Field) :
    (draft field).or (default field) = some (full field) := by
  unfold Draft.complete at h
  split at h
  · cases h
  · cases h
    exact (Option.some_get _).symm

/-- Mentions without fault that miss no required field are read, with defaults for the fields they do not mention. -/
theorem exists_close_of_faultless {mentions : List R.Mention} (hfaultless : Faultless mentions)
    (hrequired : ∀ field ∈ R.required, field ∈ mentions.map Prod.fst) :
    ∃ full, (mentions.foldlM Draft.mention .empty >>= Draft.close) = .ok full ∧
      ∀ field ∉ mentions.map Prod.fst, R.whenAbsent field = some (full field) := by
  obtain ⟨draft, hdraft⟩ := faultless_iff.mp hfaultless
  cases hclose : draft.close with
  | error e =>
    obtain ⟨field, hfield, -⟩ := (close_eq_error_iff hdraft).mp hclose
    have hmem := hrequired field (List.mem_of_find?_eq_some hfield)
    have hnotMem := List.find?_some hfield
    exact absurd hmem (of_decide_eq_true hnotMem)
  | ok full =>
    refine ⟨full, bind_eq_ok_iff.mpr ⟨draft, hdraft, hclose⟩, fun field hfield => ?_⟩
    have hnone : draft field = none := by
      simpa [Draft.empty, hfield] using isSome_foldlM hdraft field
    have hdefault := or_eq_of_complete (mapError_eq_ok_iff.mp hclose) field
    rwa [hnone, Option.none_or] at hdefault

/-! ### Whole texts -/

section Decisive

variable {α : Type} {f : R.Full → α} {encode : α → Except WriteError R.Full}
  (hcodec : ∀ field, (R.codec field).read.Decisive)
include hcodec

/-- An object is read for its mentions. -/
theorem settles_mentions {members : List NamedMember} {s : List Char}
    (hobject : SpellsObject (members.map NamedMember.member) s) :
    (R.toCodec.via (fun full => .ok (f full)) encode).read.Settles s
      (f <$> ((R.mentions members).foldlM Draft.mention .empty >>= Draft.close)) := by
  have hcomplete : ∀ m ∈ members.map NamedMember.member, IsComplete m := by
    simp only [List.forall_mem_map]
    exact fun m _ => m.isComplete
  have hsettles := (settles_object hcodec hobject hcomplete).mapOk fun full => .ok (f full)
  rw [foldlM_pass] at hsettles
  exact hsettles

theorem readAll_object {members : List NamedMember} {item : Item}
    (hobject : SpellsObject (members.map NamedMember.member) item.value) :
    (R.toCodec.via (fun full => .ok (f full)) encode).readAll item.text =
      f <$> ((R.mentions members).foldlM Draft.mention .empty >>= Draft.close) := by
  have hstable : R.toCodec.read.Stable := stable_reader fun field => (hcodec field).toStable
  exact (settles_mentions hcodec hobject).readAll_item (Codec.stable_via hstable _ encode)

theorem readAll_object_eq_error_iff {members : List NamedMember} {item : Item}
    (hobject : SpellsObject (members.map NamedMember.member) item.value) {e : ReadError} :
    (R.toCodec.via (fun full => .ok (f full)) encode).readAll item.text = .error e ↔
      Blames (R.mentions members) e := by
  rw [readAll_object hcodec hobject, ← foldlM_close_eq_error_iff]
  cases (R.mentions members).foldlM Draft.mention (.empty : R.Draft) >>= Draft.close <;>
    simp [Functor.map, Except.map]

end Decisive

end Record

end HardwareKeys.Json

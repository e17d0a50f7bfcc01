import HardwareKeys.Json.Record
import HardwareKeys.Proofs.Json.Codec
import HardwareKeys.Proofs.Json.Grammar

/-!
# Objects read as records

An object is read member by member into a draft. Whatever says of each member which field it assigns, the draft holds the assignments of the members passed so far: no key is taken for a repeated one, and at the closing brace defaults fill what is missing. An object written for a record assigns every field its value, so a record is read back from what is written.
-/

namespace HardwareKeys.Json.Record

variable {R : Record}

/-- A value for one field. -/
abbrev Assignment (R : Record) : Type := Σ field : R.Field, R.Value field

def assignedFields (assignments : List R.Assignment) : List R.Field := assignments.map Sigma.fst

/-- The draft with the values of the assignments, in their order. -/
def Draft.assign (draft : R.Draft) (assignments : List R.Assignment) : R.Draft :=
  assignments.foldl (fun draft a => draft.set a.1 a.2) draft

namespace Draft

theorem set_self (draft : R.Draft) (field : R.Field) (value : R.Value field) :
    draft.set field value field = some value := by
  simp [Draft.set]

theorem set_of_ne (draft : R.Draft) {field other : R.Field} (value : R.Value field)
    (h : other ≠ field) : draft.set field value other = draft other := by
  simp [Draft.set, h]

theorem assign_append (draft : R.Draft) (first second : List R.Assignment) :
    draft.assign (first ++ second) = (draft.assign first).assign second :=
  List.foldl_append

theorem assign_of_notMem (draft : R.Draft) {assignments : List R.Assignment} {field : R.Field}
    (h : field ∉ assignedFields assignments) : draft.assign assignments field = draft field := by
  induction assignments generalizing draft with
  | nil => rfl
  | cons a assignments ih =>
    obtain ⟨hne, hnotMem⟩ := not_or.mp (mt List.mem_cons.mpr h)
    exact (ih (draft.set a.1 a.2) hnotMem).trans (draft.set_of_ne a.2 hne)

theorem assign_of_mem (draft : R.Draft) {assignments : List R.Assignment}
    (hnodup : (assignedFields assignments).Nodup) {a : R.Assignment} (h : a ∈ assignments) :
    draft.assign assignments a.1 = some a.2 := by
  induction assignments generalizing draft with
  | nil => cases h
  | cons other assignments ih =>
    obtain ⟨hnotMem, hnodup⟩ := List.nodup_cons.mp hnodup
    cases h with
    | head => exact (assign_of_notMem (draft.set a.1 a.2) hnotMem).trans (draft.set_self a.1 a.2)
    | tail _ h => exact ih (draft.set other.1 other.2) hnodup h

/-- The draft has nothing for the fields still to come, before an assignment and after it. -/
theorem assign_eq_none {draft : R.Draft} {first later : List R.Assignment}
    (hnodup : (assignedFields (first ++ later)).Nodup)
    (hdraft : ∀ field ∈ assignedFields (first ++ later), draft field = none) :
    (∀ a ∈ first, draft a.1 = none) ∧
      ∀ field ∈ assignedFields later, draft.assign first field = none := by
  rw [assignedFields, List.map_append] at hnodup hdraft
  obtain ⟨-, -, hdisjoint⟩ := List.nodup_append.mp hnodup
  constructor
  · intro a ha
    apply hdraft
    exact List.mem_append_left _ (List.mem_map_of_mem ha)
  · intro field hfield
    have hnotMem : field ∉ assignedFields first :=
      fun hmem => hdisjoint field hmem field hfield rfl
    rw [assign_of_notMem draft hnotMem]
    exact hdraft field (List.mem_append_right _ hfield)

theorem complete_of_full {draft default : R.Draft} {full : R.Full}
    (h : ∀ field, (draft field).or (default field) = some (full field)) :
    draft.complete default = .ok full := by
  unfold Draft.complete
  split
  · next field hfind =>
    have hnone := List.find?_some hfind
    simp [h field] at hnone
  · congr 1
    funext field
    simp [h field]

end Draft

/-- Each field has the value assigned to it, or else its default. -/
structure Describes (assignments : List R.Assignment) (full : R.Full) : Prop where
  assigned : ∀ a ∈ assignments, full a.1 = a.2
  absent : ∀ field ∉ assignedFields assignments, R.whenAbsent field = some (full field)

theorem Describes.complete_assign {assignments : List R.Assignment} {full : R.Full}
    (h : Describes assignments full) (hnodup : (assignedFields assignments).Nodup) :
    (Draft.empty.assign assignments).complete R.whenAbsent = .ok full := by
  apply Draft.complete_of_full
  intro field
  by_cases hfield : field ∈ assignedFields assignments
  · obtain ⟨a, ha, rfl⟩ := List.mem_map.mp hfield
    rw [Draft.assign_of_mem _ hnodup ha, h.assigned a ha, Option.some_or]
  · rw [Draft.assign_of_notMem _ hfield, h.absent field hfield, Draft.empty, Option.none_or]

/-! ### Members -/

theorem nextEntry_blanks (first : Bool) (blanks : Blanks) (s : List Char) :
    nextEntry first (blanks.text ++ s) = nextEntry first s := by
  rw [nextEntry, blanks.skipBlanks_append, nextEntry]

theorem nextEntry_close (first : Bool) (rest : List Char) :
    nextEntry first ('\x7d' :: rest) = .ok (false, rest) := rfl

theorem nextEntry_member (m : Member) (rest : List Char) :
    nextEntry true (m.text ++ rest) = .ok (true, m.body ++ rest) := by
  rw [Member.text, List.append_assoc, nextEntry_blanks]
  rfl

theorem nextEntry_commaMember (m : Member) (rest : List Char) :
    nextEntry false (',' :: (m.text ++ rest)) = .ok (true, m.body ++ rest) := by
  simp [nextEntry, Member.text, skipBlanks_cons, isBlank]

theorem readEntries_of_close {draft : R.Draft} {first : Bool} {s rest : List Char}
    (hnext : nextEntry first s = .ok (false, rest)) :
    readEntries draft first s = .ok (draft, rest) := by
  rw [readEntries]
  split <;> simp_all

theorem readEntries_of_entry {draft next last : R.Draft} {first : Bool}
    {s entry tail rest : List Char} (hnext : nextEntry first s = .ok (true, entry))
    (hentry : readEntry draft entry = .ok (next, tail))
    (hentries : readEntries next false tail = .ok (last, rest)) :
    readEntries draft first s = .ok (last, rest) := by
  rw [readEntries]
  split
  · simp_all
  · simp_all
  · next h =>
    obtain rfl : entry = _ := by simpa [hnext] using h
    split
    · simp_all
    · next h =>
      obtain ⟨rfl, rfl⟩ : next = _ ∧ tail = _ := by simpa [hentry] using h
      exact hentries

/-- The member makes the assignment, if there is one, and is passed over if there is none. -/
def Makes (m : Member) (assignment? : Option R.Assignment) : Prop :=
  ∀ {draft : R.Draft} {rest}, (∀ a ∈ assignment?, draft a.1 = none) → EndsNumber rest →
    ∃ blanks : Blanks, readEntry draft (m.body ++ rest) =
      .ok (draft.assign assignment?.toList, blanks.text ++ rest)

section Members

variable {ι : Type} {member : ι → Member} {assignment? : ι → Option R.Assignment}

theorem filterMap_cons_eq_append (e : ι) (entries : List ι) :
    (e :: entries).filterMap assignment? =
      (assignment? e).toList ++ entries.filterMap assignment? := by
  cases h : assignment? e <;> simp [h]

/-- A member whose key starts next, before a text whose reading is known. -/
theorem readEntries_of_makes {m : Member} {made? : Option R.Assignment}
    {later : List R.Assignment} {draft : R.Draft} {first : Bool} {s tail rest : List Char}
    (hmakes : Makes m made?) (hnodup : (assignedFields (made?.toList ++ later)).Nodup)
    (hdraft : ∀ field ∈ assignedFields (made?.toList ++ later), draft field = none)
    (htail : EndsNumber tail) (hnext : nextEntry first s = .ok (true, m.body ++ tail))
    (hentries : ∀ (next : R.Draft) (blanks : Blanks),
      (∀ field ∈ assignedFields later, next field = none) →
        readEntries next false (blanks.text ++ tail) = .ok (next.assign later, rest)) :
    readEntries draft first s = .ok (draft.assign (made?.toList ++ later), rest) := by
  obtain ⟨hfirst, hlater⟩ := Draft.assign_eq_none hnodup hdraft
  obtain ⟨blanks, hentry⟩ :=
    hmakes (fun a ha => hfirst a (Option.mem_toList.mpr ha)) htail
  rw [Draft.assign_append]
  exact readEntries_of_entry hnext hentry (hentries _ blanks hlater)

theorem nodup_of_append {first later : List R.Assignment}
    (h : (assignedFields (first ++ later)).Nodup) : (assignedFields later).Nodup := by
  rw [assignedFields, List.map_append] at h
  exact (List.nodup_append.mp h).2.1

theorem readEntries_commaMembers {entries : List ι}
    (hmakes : ∀ e ∈ entries, Makes (member e) (assignment? e))
    (hnodup : (assignedFields (entries.filterMap assignment?)).Nodup) {draft : R.Draft}
    (hdraft : ∀ field ∈ assignedFields (entries.filterMap assignment?), draft field = none)
    (blanks : Blanks) (rest : List Char) :
    readEntries draft false (blanks.text ++
        ((entries.map fun e => (member e).text).flatMap (',' :: ·) ++ '\x7d' :: rest)) =
      .ok (draft.assign (entries.filterMap assignment?), rest) := by
  -- The draft has nothing for the fields still to come, so no key is taken for a repeated one.
  induction entries generalizing draft blanks with
  | nil =>
    apply readEntries_of_close
    rw [nextEntry_blanks]
    exact nextEntry_close false rest
  | cons e entries ih =>
    obtain ⟨hentry, hentries⟩ := List.forall_mem_cons.mp hmakes
    have hends := Reader.endsNumber_flatMap_comma (entries.map fun e => (member e).text) rest
      (show continuesNumber '\x7d' = false by decide)
    rw [filterMap_cons_eq_append] at hnodup hdraft ⊢
    rw [List.map_cons, List.flatMap_cons, List.append_assoc, List.cons_append]
    apply readEntries_of_makes hentry hnodup hdraft hends
    · rw [nextEntry_blanks, nextEntry_commaMember]
    · intro next blanks hnext
      exact ih hentries (nodup_of_append hnodup) hnext blanks

theorem readEntries_members {entries : List ι}
    (hmakes : ∀ e ∈ entries, Makes (member e) (assignment? e))
    (hnodup : (assignedFields (entries.filterMap assignment?)).Nodup) (rest : List Char) :
    readEntries (Draft.empty : R.Draft) true
        ([','].intercalate (entries.map fun e => (member e).text) ++ '\x7d' :: rest) =
      .ok (Draft.empty.assign (entries.filterMap assignment?), rest) := by
  cases entries with
  | nil => exact readEntries_of_close (nextEntry_close true rest)
  | cons e entries =>
    obtain ⟨hentry, hentries⟩ := List.forall_mem_cons.mp hmakes
    have hends := Reader.endsNumber_flatMap_comma (entries.map fun e => (member e).text) rest
      (show continuesNumber '\x7d' = false by decide)
    rw [filterMap_cons_eq_append] at hnodup ⊢
    rw [List.map_cons, intercalate_comma_cons, List.append_assoc]
    apply readEntries_of_makes hentry hnodup (fun _ _ => rfl) hends
    · exact nextEntry_member _ _
    · intro next blanks hnext
      exact readEntries_commaMembers hentries (nodup_of_append hnodup) hnext blanks rest

theorem run_writeObject {entries : List ι} {full : R.Full}
    (hmakes : ∀ e ∈ entries, Makes (member e) (assignment? e))
    (hnodup : (assignedFields (entries.filterMap assignment?)).Nodup)
    (hfull : Describes (entries.filterMap assignment?) full) (rest : List Char) :
    R.reader.run (writeObject (entries.map fun e => (member e).text) ++ rest) =
      .ok (full, rest) := by
  have hrun : R.reader.run (writeObject (entries.map fun e => (member e).text) ++ rest) =
      R.readObject ([','].intercalate (entries.map fun e => (member e).text) ++
        '\x7d' :: rest) := by
    simp only [writeObject, List.cons_append, List.append_assoc, List.nil_append]
    rfl
  rw [hrun, readObject, readEntries_members hmakes hnodup]
  simp [bind, Except.bind, hfull.complete_assign hnodup, mapError_ok, pure, Except.pure]

end Members

/-! ### Written objects -/

theorem ofKey?_key (hkeys : Function.Injective R.key) (field : R.Field) :
    R.ofKey? (R.key field).toList = some field := by
  unfold ofKey?
  cases hfind : R.fields.find? fun other => (R.key other).toList = (R.key field).toList with
  | none =>
    have hne := List.find?_eq_none.mp hfind field (R.mem_fields field)
    simp at hne
  | some other =>
    have heq := List.find?_some hfind
    simp only [decide_eq_true_eq, String.toList_inj] at heq
    rw [hkeys heq]

/-- The entry of a field, with the text of its value. -/
def entryText (texts : R.Field → List Char) (field : R.Field) : List Char :=
  writeText (R.key field).toList ++ ':' :: texts field

/-- The object of all fields, with the texts of their values. -/
def objectText (R : Record) (texts : R.Field → List Char) : List Char :=
  '\x7b' :: [','].intercalate (R.fields.map (entryText texts)) ++ ['\x7d']

section Written

variable {texts : R.Field → List Char} {full : R.Full}

/-- The member that is written for a field, without blanks. -/
def writtenMember (texts : R.Field → List Char) (field : R.Field) : Member :=
  ⟨.none, (R.key field).toList.flatMap writeChar, .none, ⟨.none, texts field, .none⟩⟩

theorem text_writtenMember (field : R.Field) :
    (writtenMember texts field).text = entryText texts field := by
  simp [writtenMember, Member.text, Member.body, Item.text, entryText, writeText, Blanks.none]

theorem objectText_eq_writeObject (texts : R.Field → List Char) :
    R.objectText texts = writeObject (R.fields.map fun field => (writtenMember texts field).text) := by
  simp only [text_writtenMember]
  rfl

theorem makes_writtenMember (hkeys : Function.Injective R.key) {field : R.Field}
    (hvalue : (R.codec field).read.Reads (texts field) (full field)) :
    Makes (writtenMember texts field) (some ⟨field, full field⟩) := by
  intro draft rest hdraft hrest
  have hnone : draft field = none := hdraft ⟨field, full field⟩ rfl
  have hcolon : expectColon (':' :: (texts field ++ rest)) = .ok (texts field ++ rest) := rfl
  refine ⟨.none, ?_⟩
  simp [writtenMember, Member.body, Item.text, Blanks.none, readEntry,
    readChars_flatMap_writeChar, ofKey?_key hkeys, hnone, hcolon, hvalue rest hrest, Draft.assign,
    bind, Except.bind, pure, Except.pure]

/-- The assignments of all fields. -/
def allAssignments (full : R.Full) : List R.Assignment :=
  R.fields.filterMap fun field => some ⟨field, full field⟩

theorem assignedFields_allAssignments : assignedFields (allAssignments full) = R.fields := by
  simp [assignedFields, allAssignments, Function.comp_def]

theorem describes_allAssignments : Describes (allAssignments full) full where
  assigned := by
    intro a ha
    obtain ⟨field, -, heq⟩ := List.mem_filterMap.mp ha
    cases heq
    rfl
  absent := by
    intro field hfield
    rw [assignedFields_allAssignments] at hfield
    exact absurd (R.mem_fields field) hfield

theorem reads_objectText (hkeys : Function.Injective R.key) (hnodup : R.fields.Nodup)
    (hvalues : ∀ field, (R.codec field).read.Reads (texts field) (full field)) :
    R.reader.Reads (R.objectText texts) full := by
  intro rest _
  have hall : (assignedFields (allAssignments full)).Nodup := by
    rwa [assignedFields_allAssignments]
  rw [objectText_eq_writeObject]
  exact run_writeObject (fun field _ => makes_writtenMember hkeys (hvalues field)) hall
    describes_allAssignments rest

end Written

theorem writeEntry_eq_ok_iff {full : R.Full} {field : R.Field} {s : List Char} :
    writeEntry full field = .ok s ↔ ∃ text, (R.codec field).write (full field) = .ok text ∧
      writeText (R.key field).toList ++ ':' :: text = s := by
  constructor
  · intro h
    obtain ⟨text, htext, h⟩ := bind_eq_ok_iff.mp h
    cases h
    exact ⟨text, htext, rfl⟩
  · rintro ⟨text, htext, rfl⟩
    exact bind_eq_ok_iff.mpr ⟨text, htext, rfl⟩

theorem write_eq_ok_iff {full : R.Full} {s : List Char} :
    write full = .ok s ↔ ∃ texts : R.Field → List Char,
      (∀ field, (R.codec field).write (full field) = .ok (texts field)) ∧
        R.objectText texts = s := by
  constructor
  · intro h
    obtain ⟨entries, hentries, h⟩ := bind_eq_ok_iff.mp h
    have hexists : ∀ field, ∃ text, (R.codec field).write (full field) = .ok text := by
      intro field
      obtain ⟨entry, hentry⟩ := exists_mapM_eq_ok_iff.mp ⟨entries, hentries⟩ field
        (R.mem_fields field)
      obtain ⟨text, htext, -⟩ := writeEntry_eq_ok_iff.mp hentry
      exact ⟨text, htext⟩
    choose texts htexts using hexists
    have hmap : R.fields.mapM (writeEntry full) = .ok (R.fields.map (entryText texts)) :=
      mapM_eq_ok_map fun field _ => writeEntry_eq_ok_iff.mpr ⟨texts field, htexts field, rfl⟩
    rw [hmap] at hentries
    cases hentries
    cases h
    exact ⟨texts, htexts, rfl⟩
  · rintro ⟨texts, htexts, rfl⟩
    have hmap : R.fields.mapM (writeEntry full) = .ok (R.fields.map (entryText texts)) :=
      mapM_eq_ok_map fun field _ => writeEntry_eq_ok_iff.mpr ⟨texts field, htexts field, rfl⟩
    exact bind_eq_ok_iff.mpr ⟨_, hmap, rfl⟩

theorem writes_toCodec {full : R.Full} :
    R.toCodec.Writes full ↔ ∀ field, (R.codec field).Writes (full field) := by
  constructor
  · rintro ⟨s, h⟩ field
    obtain ⟨texts, htexts, -⟩ := write_eq_ok_iff.mp h
    exact ⟨texts field, htexts field⟩
  · intro h
    choose texts htexts using h
    exact ⟨R.objectText texts, write_eq_ok_iff.mpr ⟨texts, htexts, rfl⟩⟩

theorem lawful_toCodec (hkeys : Function.Injective R.key) (hnodup : R.fields.Nodup)
    (hcodec : ∀ field, (R.codec field).Lawful) : R.toCodec.Lawful where
  reads := by
    intro full s hwrite
    obtain ⟨texts, htexts, rfl⟩ := write_eq_ok_iff.mp hwrite
    exact reads_objectText hkeys hnodup fun field => (hcodec field).reads (htexts field)
  starts := by
    intro full s hwrite
    obtain ⟨texts, -, rfl⟩ := write_eq_ok_iff.mp hwrite
    exact ⟨'\x7b', _, rfl, by decide, by decide⟩

theorem neverNull_toCodec : R.toCodec.NeverNull := by
  intro full s hwrite tail heq
  obtain ⟨texts, -, rfl⟩ := write_eq_ok_iff.mp hwrite
  cases heq

end HardwareKeys.Json.Record

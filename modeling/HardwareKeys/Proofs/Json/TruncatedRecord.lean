import HardwareKeys.Proofs.Json.Mentions
import HardwareKeys.Proofs.Json.Truncation

/-!
# Objects that are cut off

The object that is written for a record is missed when it has lost its end: inside a key, after it, inside a value or between two entries, the record is told that the text ended.
-/

namespace HardwareKeys.Json

namespace Codec

variable {α β : Type} {c : Codec α}

/-- The end of what is written is missed when it is lost. -/
def Awaits (c : Codec α) : Prop := ∀ a s, c.write a = .ok s → c.read.Awaits s

/-- The end of what is written is missed when it is lost, or nothing is left for what follows. -/
def Exhausts (c : Codec α) : Prop := ∀ a s, c.write a = .ok s → c.read.Exhausts s

theorem Awaits.exhausts (h : c.Awaits) : c.Exhausts := fun a s hwrite => (h a s hwrite).exhausts

theorem awaits_boolean : boolean.Awaits := by
  rintro value s ⟨⟩
  exact Reader.awaits_boolean value

theorem awaits_text : text.Awaits := by
  rintro value s ⟨⟩
  exact (Reader.awaits_chars .text value.toList).mapOk fun chars => .ok (String.ofList chars)

theorem exhausts_word32 : word32.Exhausts := by
  rintro n s ⟨⟩
  have hsize : UInt64.size = 18446744073709551616 := rfl
  have hword : (UInt32.size : Int) = 4294967296 := rfl
  have hmin := Int64.toInt_minValue
  have hn := n.toNat_lt
  refine Reader.exhausts_integer (by omega) (by omega) fun m hm => ?_
  rw [word32?, if_pos (by omega)]
  rfl

theorem exhausts_int32 : int32.Exhausts := by
  rintro n s ⟨⟩
  have hsize : UInt64.size = 18446744073709551616 := rfl
  have hlow := Int32.toInt_minValue
  have hhigh := Int32.toInt_maxValue
  have hmin := Int64.toInt_minValue
  have hle := n.le_toInt
  have hlt := n.toInt_lt
  refine Reader.exhausts_integer (by omega) (by omega) fun m hm => ?_
  rw [int32?, if_pos (by omega)]
  rfl

theorem exhausts_int64 : int64.Exhausts := by
  rintro n s ⟨⟩
  have hsize : UInt64.size = 18446744073709551616 := rfl
  have hmin := Int64.toInt_minValue
  have hmax := Int64.toInt_maxValue
  have hle := n.le_toInt
  have hlt := n.toInt_lt
  refine Reader.exhausts_integer (by omega) (by omega) fun m hm => ?_
  rw [int64?, if_pos (by omega)]
  rfl

theorem Awaits.orNull (h : c.Awaits) (hlawful : c.Lawful) (hnull : c.NeverNull)
    (hempty : Ended (c.read.run [])) : c.orNull.Awaits := by
  intro value s hwrite
  cases value with
  | none =>
    cases hwrite
    exact Reader.awaits_null hempty
  | some a => exact (h a s hwrite).orNull (hlawful.starts hwrite) (hnull hwrite)

theorem Exhausts.list (h : c.Exhausts) (hlawful : c.Lawful) : c.list.Awaits := by
  intro items s hwrite
  obtain ⟨texts, htexts, rfl⟩ := write_list_eq_ok_iff.mp hwrite
  exact Reader.awaits_list
    (htexts.flip.imp fun _ _ hitem => ⟨hlawful.reads hitem, hlawful.starts hitem, h _ _ hitem⟩)

theorem Awaits.via (h : c.Awaits) (decode : α → Except ReadError β)
    (encode : β → Except WriteError α) : (c.via decode encode).Awaits := by
  intro b s hwrite
  obtain ⟨a, -, hs⟩ := write_via_eq_ok_iff.mp hwrite
  exact (h a s hs).mapOk decode

end Codec

namespace Record

variable {R : Record}

/-- Where one entry is read and the next ones miss their end, the object misses it. -/
theorem ended_readEntries_of_next {draft : R.Draft} {first : Bool} {field : R.Field}
    {t entry rest : List Char} (hnext : nextEntry first t = .ok (true, entry))
    (hentry : Ended (readEntry draft entry) ∨
      ∃ value tail, readEntry draft entry = .ok (draft.set field value, tail) ∧ Cut tail rest)
    (hrest : ∀ value tail, Cut tail rest →
      Ended (readEntries (draft.set field value) false tail)) :
    Ended (readEntries draft first t) := by
  rw [readEntries_of_next hnext]
  obtain hended | ⟨value, tail, hvalue, htail⟩ := hentry
  · exact hended.bind _
  · rw [hvalue]
    exact hrest value tail htail

theorem ended_readEntries_of_error {draft : R.Draft} {first : Bool} {t : List Char}
    (h : Ended (nextEntry first t)) : Ended (readEntries draft first t) := by
  obtain ⟨e, hnext, he⟩ := h
  refine ⟨e, ?_, he⟩
  rw [readEntries]
  split <;> simp_all

section Written

variable {texts : R.Field → List Char} {full : R.Full} {t rest : List Char}
  (hkeys : Function.Injective R.key)
  (hreads : ∀ field, (R.codec field).read.Reads (texts field) (full field))
  (hexhausts : ∀ field, (R.codec field).read.Exhausts (texts field))
include hkeys hreads hexhausts

/-- An entry without its opening quote. -/
theorem ended_readEntry_or {field : R.Field} {draft : R.Draft} (hnew : draft field = none)
    (hrest : EndsNumber rest) (hne : rest ≠ [])
    (ht : Cut t ((R.key field).toList.flatMap writeChar ++ '"' :: ':' :: (texts field ++ rest))) :
    Ended (readEntry draft t) ∨
      ∃ value tail, readEntry draft t = .ok (draft.set field value, tail) ∧ Cut tail rest := by
  obtain hended | ⟨tail, hchars, htail⟩ :=
    ended_readChars_or (spellsChars_flatMap_writeChar (R.key field).toList) ht
  · exact .inl (hended.bind _)
  · have hentry : readEntry draft t = expectColon tail >>= fun rest =>
        (R.codec field).read.run rest >>= fun read => .ok (draft.set field read.1, read.2) := by
      simp only [readEntry, hchars, bind, Except.bind, ofKey?_key hkeys, hnew]
      rfl
    rw [hentry]
    obtain rfl | ⟨value, rfl, hvalue⟩ := cut_cons_iff.mp htail
    · exact .inl ⟨_, rfl, rfl⟩
    · change Ended ((R.codec field).read.run value >>= _) ∨ _
      obtain hended | ⟨a, tail, ha, htail⟩ :=
        (hexhausts field).run_cut (hreads field) hrest hne hvalue
      · exact .inl (hended.bind _)
      · refine .inr ⟨a, tail, ?_, htail⟩
        change (R.codec field).read.run value >>= _ = _
        rw [ha]
        rfl

theorem ended_readEntries {fields : List R.Field} {draft : R.Draft} (hnodup : fields.Nodup)
    (hnew : ∀ field ∈ fields, draft field = none)
    (ht : Cut t ((fields.map (entryText texts)).flatMap (',' :: ·) ++ ['\x7d'])) :
    Ended (readEntries draft false t) := by
  -- The draft has nothing for the fields still to come, so the cut is noticed before a repetition.
  induction fields generalizing draft t with
  | nil =>
    obtain rfl := ht.eq_nil_of_singleton
    exact ended_readEntries_of_error ⟨_, rfl, rfl⟩
  | cons field fields ih =>
    obtain ⟨hnotMem, hnodup⟩ := List.nodup_cons.mp hnodup
    obtain ⟨hfield, hfields⟩ := List.forall_mem_cons.mp hnew
    have hends := Reader.endsNumber_flatMap_comma (fields.map (entryText texts)) []
      (show continuesNumber '\x7d' = false by decide)
    simp only [List.map_cons, List.flatMap_cons, entryText, writeText, List.cons_append,
      List.append_assoc, List.nil_append] at ht
    obtain rfl | rfl | ⟨entry, rfl, hentry⟩ := cut_cons_cons_iff.mp ht
    · exact ended_readEntries_of_error ⟨_, rfl, rfl⟩
    · exact ended_readEntries_of_error ⟨_, rfl, rfl⟩
    · exact ended_readEntries_of_next rfl
        (ended_readEntry_or hkeys hreads hexhausts hfield hends (by simp) hentry)
        fun value _ => ih hnodup (Draft.set_eq_none hnotMem hfields value)

theorem awaits_objectText (hnodup : R.fields.Nodup) : R.reader.Awaits (R.objectText texts) := by
  intro t ht
  rw [objectText, List.cons_append] at ht
  obtain rfl | ⟨entries, rfl, hentries⟩ := cut_cons_iff.mp ht
  · exact ⟨_, rfl, rfl⟩
  · refine Ended.bind ?_ _
    cases hfields : R.fields with
    | nil =>
      rw [hfields] at hentries
      obtain rfl := hentries.eq_nil_of_singleton
      exact ended_readEntries_of_error ⟨_, rfl, rfl⟩
    | cons field fields =>
      obtain ⟨hnotMem, hfieldsNodup⟩ := List.nodup_cons.mp (hfields ▸ hnodup)
      have hends := Reader.endsNumber_flatMap_comma (fields.map (entryText texts)) []
        (show continuesNumber '\x7d' = false by decide)
      simp only [hfields, List.map_cons, intercalate_comma_cons, entryText, writeText,
        List.cons_append, List.append_assoc, List.nil_append] at hentries
      obtain rfl | ⟨entry, rfl, hentry⟩ := cut_cons_iff.mp hentries
      · exact ended_readEntries_of_error ⟨_, rfl, rfl⟩
      · exact ended_readEntries_of_next rfl
          (ended_readEntry_or hkeys hreads hexhausts rfl hends (by simp) hentry)
          fun value _ => ended_readEntries hkeys hreads hexhausts hfieldsNodup
            (Draft.set_eq_none hnotMem (fun _ _ => rfl) value)

end Written

theorem awaits_toCodec (hkeys : Function.Injective R.key) (hnodup : R.fields.Nodup)
    (hlawful : ∀ field, (R.codec field).Lawful) (hexhausts : ∀ field, (R.codec field).Exhausts) :
    R.toCodec.Awaits := by
  intro full s hwrite
  obtain ⟨texts, htexts, rfl⟩ := write_eq_ok_iff.mp hwrite
  exact awaits_objectText hkeys (fun field => (hlawful field).reads (htexts field))
    (fun field => hexhausts field _ _ (htexts field)) hnodup

end Record

end HardwareKeys.Json

import HardwareKeys.Proofs.KeyParams.Decisive

/-!
# The error of an object of parameters

Of all that may be wrong with an object of parameters, the first entry at fault gives the error, be its key a repeated one or its value none of the field, down to an instant out of range. A missing field counts only if no entry is at fault. The offset of an instant, which is an object as well, keeps the same law.
-/

namespace HardwareKeys

open Json Record

/-- An instant is what its offset comes to. -/
theorem Instant.readAll_of_settles {item : Item} {x : Except ReadError EpochOffset}
    (hx : EpochOffset.codec.read.Settles item.value x)
    (hstart : ∃ c tail, item.value = c :: tail ∧ isBlank c = false ∧ c ≠ 'n') :
    Instant.codec.orNull.readAll item.text = some <$> (x >>= Instant.ofEpochOffset) := by
  obtain ⟨c, tail, htail, hblank, hc⟩ := hstart
  have hinstant : Instant.codec.read.Settles item.value (x >>= Instant.ofEpochOffset) :=
    hx.mapOk Instant.ofEpochOffset
  have hnull : Instant.codec.orNull.read.Settles item.value
      (some <$> (x >>= Instant.ofEpochOffset)) := by
    rw [htail] at hinstant ⊢
    exact hinstant.orNull hblank hc
  exact hnull.readAll_item Instant.stable_codec.orNull

section Objects

variable {members : List NamedMember} {item : Item}
  (hobject : SpellsObject (members.map NamedMember.member) item.value)
include hobject

theorem EpochOffset.readAll_eq_error_iff {e : ReadError} :
    EpochOffset.codec.readAll item.text = .error e ↔
      Blames (EpochOffset.record.mentions members) e :=
  readAll_object_eq_error_iff (R := EpochOffset.record) EpochOffset.decisive_field hobject

theorem Instant.readAll_object : Instant.codec.orNull.readAll item.text =
    some <$> (EpochOffset.codec.readAll item.text >>= Instant.ofEpochOffset) := by
  obtain ⟨x, hx⟩ : ∃ x, EpochOffset.codec.read.Settles item.value x :=
    ⟨_, settles_mentions (R := EpochOffset.record) EpochOffset.decisive_field hobject⟩
  obtain ⟨tail, htail⟩ := hobject.eq_cons
  rw [Instant.readAll_of_settles hx ⟨'\x7b', tail, htail, by decide, by decide⟩,
    hx.readAll_item EpochOffset.decisive_codec.toStable]

/-- An offset that is read may still be out of range for an instant. -/
theorem Instant.readAll_eq_error_iff {e : ReadError} :
    Instant.codec.orNull.readAll item.text = .error e ↔
      Blames (EpochOffset.record.mentions members) e ∨
        ∃ offset, EpochOffset.codec.readAll item.text = .ok offset ∧ offset.toInstant? = none ∧
          .offsetOutOfRange = e := by
  rw [Instant.readAll_object hobject, ← EpochOffset.readAll_eq_error_iff hobject]
  cases EpochOffset.codec.readAll item.text with
  | error fault => simp [Functor.map, Except.map, bind, Except.bind]
  | ok offset =>
    cases hoffset : offset.toInstant? <;>
      simp [Functor.map, Except.map, bind, Except.bind, Instant.ofEpochOffset, hoffset]

theorem KeyParams.readAll_mentions : KeyParams.codec.readAll item.text = KeyParams.ofFields <$>
    ((KeyParams.record.mentions members).foldlM Draft.mention .empty >>= Draft.close) :=
  readAll_object (R := KeyParams.record) KeyParams.decisive_field hobject

theorem KeyParams.readAll_eq_error_iff {e : ReadError} :
    KeyParams.codec.readAll item.text = .error e ↔
      Blames (KeyParams.record.mentions members) e :=
  readAll_object_eq_error_iff (R := KeyParams.record) KeyParams.decisive_field hobject

end Objects

namespace KeyParams

theorem ofJson_ofList (text : List Char) : ofJson (String.ofList text) = codec.readAll text := by
  rw [ofJson, Codec.ofText, String.toList_ofList]

/-- An object is refused for its first entry at fault or, if there is none, for its first missing field; unknown keys do not count. -/
theorem ofJson_blames (members : List NamedMember) (item : Item)
    (hobject : SpellsObject (members.map NamedMember.member) item.value) :
    (∀ e, ofJson (String.ofList item.text) = .error e ↔ Blames (record.mentions members) e) ∧
    record.required = Field.required ∧
    (∀ (others : List NamedMember) (other : Item),
      SpellsObject (others.map NamedMember.member) other.value →
        record.mentions others = record.mentions members →
          ofJson (String.ofList other.text) = ofJson (String.ofList item.text)) ∧
    (∀ e, EpochOffset.codec.readAll item.text = .error e ↔
      Blames (EpochOffset.record.mentions members) e) ∧
    EpochOffset.record.required = [.seconds, .nanos] ∧
    ∀ e, Instant.codec.orNull.readAll item.text = .error e ↔
      Blames (EpochOffset.record.mentions members) e ∨
        ∃ offset, EpochOffset.codec.readAll item.text = .ok offset ∧ offset.toInstant? = none ∧
          .offsetOutOfRange = e := by
  refine ⟨fun e => ?_, rfl, fun others other hother hmentions => ?_, fun e => ?_, rfl,
    fun e => Instant.readAll_eq_error_iff hobject⟩
  · rw [ofJson_ofList]
    exact readAll_eq_error_iff hobject
  · rw [ofJson_ofList, ofJson_ofList, readAll_mentions hobject, readAll_mentions hother, hmentions]
  · exact EpochOffset.readAll_eq_error_iff hobject

def nullItem : Item := ⟨.none, writeNull, lineBreak⟩

/-- A member with `null` under its key. -/
def nullMember {key name : List Char} (h : SpellsChars key name) : NamedMember :=
  ⟨⟨.none, key, .none, nullItem⟩, name, h, .null⟩

theorem spellsChars_note : SpellsChars "note".toList "note".toList :=
  spellsChars_flatMap_writeChar "note".toList

theorem spellsChars_escapedOrigin :
    SpellsChars "\\u006frigin".toList Field.origin.key.toList := by
  have hunit : SpellsUnit "006f".toList 0x6f := ⟨rfl, rfl⟩
  have hletter : SpellsChar "\\u006f".toList 'o' := .unit hunit rfl rfl
  exact .cons hletter (spellsChars_flatMap_writeChar "rigin".toList)

def generatedMember : NamedMember :=
  ⟨⟨lineBreak, Field.origin.key.toList, .none, ⟨.none, writeText "GENERATED".toList, .none⟩⟩,
    Field.origin.key.toList, spellsChars_flatMap_writeChar Field.origin.key.toList,
    .text (spellsChars_flatMap_writeChar "GENERATED".toList).isBody⟩

/-- An unknown key twice, the origin twice, of which the second value is none, a key size that is none, and nothing else. -/
def doubledMembers : List NamedMember :=
  [nullMember spellsChars_note, generatedMember, nullMember spellsChars_note,
    nullMember spellsChars_escapedOrigin,
    nullMember (spellsChars_flatMap_writeChar Field.keySize.key.toList)]

def doubledItem : Item :=
  ⟨.none, writeObject ((doubledMembers.map NamedMember.member).map Member.text), lineBreak⟩

/-- The origin as it is mentioned first. -/
def originMention : record.Mention := (.origin, writeText "GENERATED".toList)

theorem mentions_doubledMembers : record.mentions doubledMembers =
    [originMention, (.origin, writeNull), (.keySize, writeNull)] := rfl

theorem faultless_originMention : Faultless [originMention] := by
  have hvalue : (record.codec .origin).readAll originMention.2 = .ok Origin.generated :=
    Codec.readAll_of_reads ((lawful_field .origin).reads rfl)
  have hnew : (Draft.empty : record.Draft) originMention.1 = none := rfl
  have hmention := Draft.mention_eq_ok_iff.mpr ⟨hnew, _, hvalue, rfl⟩
  have hfold : [originMention].foldlM Draft.mention (Draft.empty : record.Draft) = _ :=
    bind_eq_ok_iff.mpr ⟨_, hmention, rfl⟩
  exact faultless_iff.mpr ⟨_, hfold⟩

theorem ofJson_doubledItem :
    SpellsObject (doubledMembers.map NamedMember.member) doubledItem.value ∧
      ofJson (String.ofList doubledItem.text) = .error (.duplicateField "origin") := by
  have hobject : SpellsObject (doubledMembers.map NamedMember.member) doubledItem.value :=
    spellsObject_writeObject _
  refine ⟨hobject, ((ofJson_blames doubledMembers doubledItem hobject).1 _).mpr ?_⟩
  exact .entry mentions_doubledMembers faultless_originMention (.repeated (.head _))

end KeyParams

end HardwareKeys

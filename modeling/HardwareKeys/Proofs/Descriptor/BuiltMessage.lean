import HardwareKeys.Proofs.Descriptor.Build
import HardwareKeys.Proofs.Purposes.Normal

/-!
# The message of a built descriptor

The alias stands in the message as it is, so it may hold quotes, commas and whatever the rest of the message holds. What follows it is three fields behind signs `=`, none of which holds that sign, so they are found from the end, the last one first. The alias is what remains.
-/

namespace HardwareKeys

/-- Texts that tell the values apart and do not hold the sign in front of them. -/
structure IsField {α : Type} (text : α → List Char) : Prop where
  notMem : ∀ a, '=' ∉ text a
  injective : Function.Injective text

theorem append_cons_cancel_of_notMem {sign : Char} {before other s t : List Char} (hs : sign ∉ s)
    (ht : sign ∉ t) (h : before ++ sign :: s = other ++ sign :: t) : before = other ∧ s = t := by
  rcases List.append_eq_append_iff.mp h with ⟨between, hother, hcut⟩ | ⟨between, hbefore, hcut⟩
  · rcases List.cons_eq_append_iff.mp hcut with ⟨rfl, htail⟩ | ⟨rest, -, rfl⟩
    · exact ⟨by rw [hother, List.append_nil], (List.cons.inj htail).2.symm⟩
    · exact absurd (List.mem_append_right rest List.mem_cons_self) hs
  · rcases List.cons_eq_append_iff.mp hcut with ⟨rfl, htail⟩ | ⟨rest, -, rfl⟩
    · exact ⟨by rw [hbefore, List.append_nil], (List.cons.inj htail).2⟩
    · exact absurd (List.mem_append_right rest List.mem_cons_self) ht

/-- The last field is cut off at the last sign. -/
theorem IsField.cut {α : Type} {text : α → List Char} (hfield : IsField text)
    {before other : List Char} {a b : α} (h : before ++ '=' :: text a = other ++ '=' :: text b) :
    before = other ∧ a = b := by
  obtain ⟨hbefore, htext⟩ := append_cons_cancel_of_notMem (hfield.notMem a) (hfield.notMem b) h
  exact ⟨hbefore, hfield.injective htext⟩

namespace Purposes

theorem notMem_intercalate {sign : Char} (hsign : sign ∉ separator) {parts : List (List Char)}
    (h : ∀ s ∈ parts, sign ∉ s) : sign ∉ separator.intercalate parts := by
  induction parts with
  | nil => simp
  | cons part parts ih =>
    obtain ⟨hpart, hparts⟩ := List.forall_mem_cons.mp h
    cases parts with
    | nil => rwa [List.intercalate_singleton]
    | cons next parts =>
      rw [List.intercalate_cons_cons, List.mem_append, List.mem_append]
      exact not_or.mpr ⟨not_or.mpr ⟨hpart, hsign⟩, ih hparts⟩

theorem equals_notMem_hexText (p : Purposes) : '=' ∉ p.hexText := by
  intro hmem
  rw [hexText, List.mem_cons, List.mem_cons] at hmem
  rcases hmem with h | h | hdigit
  · exact absurd h (by decide)
  · exact absurd h (by decide)
  · obtain ⟨d, hd, h⟩ := mem_hexDigits hdigit
    exact absurd h.symm (by decide +revert)

theorem equals_notMem_text (p : Purposes) : '=' ∉ p.text := by
  refine notMem_intercalate (by decide) fun s hs => ?_
  rw [partTexts, List.mem_append, List.mem_map] at hs
  rcases hs with ⟨purpose, -, rfl⟩ | hs
  · cases purpose <;> decide
  · split at hs
    · cases hs
    · rw [List.mem_singleton.mp hs]
      exact equals_notMem_hexText _

theorem equals_notMem_messageText (p : Purposes) : '=' ∉ p.messageText := by
  have hinner : '=' ∉ if p.isEmpty then p.hexText else p.text := by
    split
    · exact p.equals_notMem_hexText
    · exact p.equals_notMem_text
  change '=' ∉ "KeyPurpose(".toList ++ (if p.isEmpty then p.hexText else p.text) ++ [')']
  rw [List.mem_append, List.mem_append]
  exact not_or.mpr ⟨not_or.mpr ⟨by decide, hinner⟩, by decide⟩

/-- The sets differ where their texts do, for the text between the brackets is read as its set. -/
theorem messageText_injective : Function.Injective messageText := by
  intro p q h
  obtain ⟨inner, hp, hread, -⟩ := exists_messageText p
  obtain ⟨other, hq, hother, -⟩ := exists_messageText q
  rw [hp, hq] at h
  obtain rfl : inner = other := List.append_cancel_left (List.append_cancel_right h)
  rw [hread] at hother
  exact Except.ok.inj hother

end Purposes

namespace Event

def originField (origin : Origin) : List Char := origin.label.toList ++ ", purposes".toList

def purposesField (purposes : Purposes) : List Char :=
  purposes.messageText ++ ", secure_hw".toList

def hardwareField (inSecureHardware : Bool) : List Char :=
  (if inSecureHardware then "true" else "false").toList

theorem isField_originField : IsField originField where
  notMem origin := by cases origin <;> decide
  injective := by
    intro origin other h
    have hlabel := List.append_cancel_right h
    cases origin <;> cases other <;> first | rfl | exact absurd hlabel (by decide)

theorem isField_purposesField : IsField purposesField where
  notMem purposes := by
    rw [purposesField, List.mem_append]
    exact not_or.mpr ⟨purposes.equals_notMem_messageText, by decide⟩
  injective _ _ h := Purposes.messageText_injective (List.append_cancel_right h)

theorem isField_hardwareField : IsField hardwareField where
  notMem flag := by cases flag <;> decide
  injective := by
    intro flag other h
    cases flag <;> cases other <;> first | rfl | exact absurd h (by decide)

theorem toList_message_built (keyAlias : String) (origin : Origin) (purposes : Purposes)
    (inSecureHardware : Bool) :
    (built keyAlias origin purposes inSecureHardware).message.toList =
      "Built key descriptor for '".toList ++ keyAlias.toList ++ "': origin".toList
        ++ '=' :: originField origin ++ '=' :: purposesField purposes
        ++ '=' :: hardwareField inSecureHardware := by
  have hmessage : (built keyAlias origin purposes inSecureHardware).message =
      "Built key descriptor for '" ++ keyAlias ++ builtTail origin purposes inSecureHardware := rfl
  have horigin : "': origin=".toList = "': origin".toList ++ ['='] := by decide
  have hpurposes : ", purposes=".toList = ", purposes".toList ++ ['='] := by decide
  have hhardware : ", secure_hw=".toList = ", secure_hw".toList ++ ['='] := by decide
  rw [hmessage, builtTail, originField, purposesField, hardwareField]
  simp only [String.toList_append, String.toList_ofList, horigin, hpurposes, hhardware,
    List.append_assoc, List.cons_append, List.nil_append]

theorem message_built_injective {keyAlias other : String} {origin origin' : Origin}
    {purposes purposes' : Purposes} {flag flag' : Bool}
    (h : (built keyAlias origin purposes flag).message =
      (built other origin' purposes' flag').message) :
    built keyAlias origin purposes flag = built other origin' purposes' flag' := by
  have hlist := congrArg String.toList h
  rw [toList_message_built, toList_message_built] at hlist
  obtain ⟨hpurposes, hflag⟩ := isField_hardwareField.cut hlist
  obtain ⟨horigin, hbits⟩ := isField_purposesField.cut hpurposes
  obtain ⟨hfront, hlabel⟩ := isField_originField.cut horigin
  have halias := List.append_cancel_left (List.append_cancel_right hfront)
  rw [String.toList_inj.mp halias, hlabel, hbits, hflag]

end Event

namespace Descriptor

theorem events_build_of_alias {p : KeyParams} {keyAlias : String}
    (h : p.keyAlias = some keyAlias) :
    (build p).events = [.built keyAlias p.origin p.purposes p.insideSecureHardware] := by
  obtain ⟨d, hd, halias, -⟩ := ofParams_of_alias h
  rw [build_of_ok hd, builtEvent_of_ofParams hd, halias]

/-- Building reports one message, which tells the alias, the origin, all bits of the purposes and the flag of the parameters, whatever the alias holds. -/
theorem messages_build_eq_iff {p q : KeyParams} {keyAlias other : String}
    (hp : p.keyAlias = some keyAlias) (hq : q.keyAlias = some other) :
    ∃ message message' : String,
      (build p).events.map Event.message = [message] ∧
      (build q).events.map Event.message = [message'] ∧
      (message = message' ↔
        keyAlias = other ∧ p.origin = q.origin ∧ p.purposes.bits = q.purposes.bits ∧
          p.insideSecureHardware = q.insideSecureHardware) := by
  have hbits : p.purposes.bits = q.purposes.bits ↔ p.purposes = q.purposes := by
    rw [Purposes.mk.injEq]
  refine ⟨_, _, congrArg _ (events_build_of_alias hp), congrArg _ (events_build_of_alias hq), ?_⟩
  rw [hbits, ← Event.built.injEq]
  exact ⟨Event.message_built_injective, congrArg Event.message⟩

def importedKey : KeyParams := { keyAlias := some "k", origin := .imported, purposes := ⟨0x14⟩ }

/-- Differs in a field that no message holds. -/
def largerKey : KeyParams := { importedKey with keySize := 4096 }

/-- Its alias imitates the rest of the message. -/
def hostileKey : KeyParams :=
  { importedKey with
    keyAlias := some "k': origin=imported, purposes=KeyPurpose(SIGN | 0x10), secure_hw=false" }

theorem messages_build_hostileAlias :
    (build importedKey).events.map Event.message = (build largerKey).events.map Event.message ∧
      (build importedKey).events.map Event.message ≠
        (build hostileKey).events.map Event.message := by
  obtain ⟨m, n, hm, hn, hsame⟩ := messages_build_eq_iff (p := importedKey) (q := largerKey) rfl rfl
  obtain ⟨m', n', hm', hn', hother⟩ :=
    messages_build_eq_iff (p := importedKey) (q := hostileKey) rfl rfl
  refine ⟨?_, fun h => ?_⟩
  · rw [hm, hn, hsame.mpr ⟨rfl, rfl, rfl, rfl⟩]
  · rw [hm', hn'] at h
    exact absurd (hother.mp (List.cons.inj h).1).1 (by decide)

end Descriptor

end HardwareKeys

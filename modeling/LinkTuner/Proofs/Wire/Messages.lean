import LinkTuner.Proofs.Decimal.Readback
import LinkTuner.Proofs.Wire.Fields

/-!
# Messages that are read as they were written

A device whose name was read from a payload has a name of plain text, and every number is written as
plain text, so the fields of a message that names the device are plain. Main statement: an
observation that was read has a text of its own, the normal form of the payload, and reading that
text gives the observation back. A decision for its device is read back in the same way.
-/

namespace LinkTuner.Wire

open Decimal (digits isDigit NumeralChar)

/-! ## Plain text -/

/-- A device whose name goes through a payload unchanged. -/
structure Travels (id : DeviceId) : Prop where
  valid : DeviceId.isValid id.text = true
  ascii : Ascii id.text.toList

theorem Travels.plain {id : DeviceId} (h : Travels id) : Plain id.text.toList := by
  intro c hc
  have hvalid := h.valid
  simp only [DeviceId.isValid, Bool.and_eq_true] at hvalid
  have hallows := List.all_eq_true.mp hvalid.2 c hc
  simp only [DeviceId.allows, Bool.and_eq_true, bne_iff_ne, Bool.not_eq_eq_eq_not,
    Bool.not_true] at hallows
  exact ⟨h.ascii c hc, hallows.1.1, hallows.1.2⟩

theorem Travels.length_le {id : DeviceId} (h : Travels id) :
    id.text.toList.length ≤ DeviceId.maxLength := by
  have hvalid := h.valid
  simp only [DeviceId.isValid, Bool.and_eq_true, decide_eq_true_eq] at hvalid
  rw [← length_bytesOf_ofList h.ascii, String.ofList_toList, length_bytesOf]
  exact hvalid.1.2

theorem plainChar_of_isDigit {c : Char} (h : isDigit c = true) : PlainChar c := by
  obtain ⟨hlow, hhigh⟩ := Decimal.isDigit_iff.mp h
  refine ⟨by omega, ?_, ?_⟩
  · rintro rfl
    cases h
  · simp only [Text.isBlank, Bool.or_eq_false_iff, Bool.and_eq_false_iff, decide_eq_false_iff_not,
      beq_eq_false_iff_ne]
    omega

theorem plain_digits (n : ℕ) : Plain (digits n) := fun _ hc =>
  plainChar_of_isDigit (Decimal.isDigit_of_mem_digits hc)

theorem plain_text (x : Float) : Plain (Decimal.text x).toList := by
  intro c hc
  have hothers : ∀ c ∈ ['.', '-', 'i', 'n', 'f', 'N', 'a'], PlainChar c := by
    simp [PlainChar, Text.isBlank]
  obtain (hdigit | rfl) | hletter := Decimal.mem_text hc
  · exact plainChar_of_isDigit hdigit
  · exact hothers '.' List.mem_cons_self
  · exact hothers c (List.mem_cons_of_mem _ hletter)

/-- A field is plain if it is so when there is something to write. -/
theorem plain_fieldOf {α : Type} {write : α → String} (h : ∀ a, Plain (write a).toList)
    (a : Option α) : Plain (fieldOf write a).toList := by
  cases a with
  | none => exact fun c hc => absurd hc (by simp [fieldOf])
  | some a => exact h a

/-! ## Single fields -/

theorem readDevice_of_travels {id : DeviceId} (h : Travels id) :
    readDevice id.text.toList = .ok id := by
  rw [readDevice, String.ofList_toList, DeviceId.ofText?_eq_some_iff.mpr ⟨h.valid, rfl⟩]

theorem travels_of_readDevice {field : List Char} {id : DeviceId} (hascii : Ascii field)
    (h : readDevice field = .ok id) : Travels id := by
  rw [readDevice] at h
  split at h
  next id' hread =>
    cases h
    obtain ⟨hvalid, htext⟩ := DeviceId.ofText?_eq_some_iff.mp hread
    exact ⟨htext ▸ hvalid, by rwa [htext, String.toList_ofList]⟩
  next => cases h

theorem toList_text_actionId (a : ActionId) : a.text.toList = digits a.toNat :=
  String.toList_ofList

theorem plain_text_actionId (a : ActionId) : Plain a.text.toList :=
  toList_text_actionId a ▸ plain_digits a.toNat

theorem action?_text (a : ActionId) : action? a.text.toList = some a := by
  have hlt : a.toNat < UInt32.size := a.index.toNat_lt
  rw [toList_text_actionId, action?, Decimal.unsigned?_digits hlt, Option.map_some,
    ActionId.ofNat, ActionId.toNat, UInt32.ofNat_toNat]

theorem sequence?_digits (n : UInt64) : sequence? (digits n.toNat) = some n := by
  have hlt : n.toNat < UInt64.size := n.toNat_lt
  rw [sequence?, Decimal.unsigned?_digits hlt, Option.map_some, UInt64.ofNat_toNat]

theorem readPrevious_fieldOf (previous : Option ActionId) :
    readPrevious (fieldOf ActionId.text previous).toList = .ok previous := by
  cases previous with
  | none => rfl
  | some a =>
      have hread := action?_text a
      have hempty : a.text.toList ≠ [] := by
        intro hnil
        rw [hnil] at hread
        cases hread
      have hmark : a.text.toList ≠ ['-'] := by
        intro hdash
        rw [hdash] at hread
        cases hread
      simp only [readPrevious, fieldOf, hread]
      rw [if_neg (not_or.mpr ⟨hempty, hmark⟩)]

theorem readSequence_digits (sequence : Option UInt64) :
    readSequence (sequence.map fun n => digits n.toNat) = .ok sequence := by
  cases sequence with
  | none => rfl
  | some n =>
      obtain ⟨c, cs, hcons⟩ := List.exists_cons_of_ne_nil (Decimal.digits_ne_nil n.toNat)
      have hread := sequence?_digits n
      rw [hcons] at hread
      simp only [Option.map_some, hcons, readSequence, hread]

theorem energy_fieldOf (energy : Option Float) :
    Decimal.float? (fieldOf Decimal.text energy).toList = energy := by
  cases energy with
  | none => rfl
  | some x => exact Decimal.float?_text x

/-- No number is written as a word for success or failure. -/
theorem delivery?_text (x : Float) : delivery? (Decimal.text x).toList = some x := by
  -- Each of the words has a letter that no number has.
  have hletter (c d : Char) (hc : c ∈ (Decimal.text x).toList)
      (hd : ¬NumeralChar d ∧ d ∉ ['-', 'i', 'n', 'f', 'N', 'a'].map Char.toLower) :
      c.toLower ≠ d := by
    rintro rfl
    obtain hnumeral | hmem := Decimal.mem_text hc
    · rw [Decimal.toLower_of_numeralChar hnumeral] at hd
      exact hd.1 hnumeral
    · exact hd.2 (List.mem_map_of_mem hmem)
  have hword (word : String) (d : Char)
      (hd : d ∈ word.toList ∧ ¬NumeralChar d ∧
        d ∉ ['-', 'i', 'n', 'f', 'N', 'a'].map Char.toLower) :
      String.ofList (Decimal.lower (Decimal.text x).toList) ≠ word := by
    rintro rfl
    obtain ⟨hmem, hother⟩ := hd
    rw [String.toList_ofList, Decimal.lower, List.mem_map] at hmem
    obtain ⟨c, hc, heq⟩ := hmem
    exact hletter c d hc hother heq
  rw [delivery?, if_neg, if_neg, Decimal.float?_text]
  · rintro (h | h | h)
    · exact hword "false" 'l' (by decide) h
    · exact hword "fail" 'l' (by decide) h
    · exact hword "failure" 'l' (by decide) h
  · rintro (h | h | h)
    · exact hword "true" 't' (by decide) h
    · exact hword "ok" 'o' (by decide) h
    · exact hword "success" 's' (by decide) h

theorem delivery?_fieldOf (delivery : Option Float) :
    delivery? (fieldOf Decimal.text delivery).toList = delivery := by
  cases delivery with
  | none => rfl
  | some x => exact delivery?_text x

/-! ## Sequence numbers -/

/-- The field of a sequence number, if there is one. -/
def sequenceField (sequence : Option UInt64) : List (List Char) :=
  (sequence.map fun n => digits n.toNat).toList

theorem plain_sequenceField {sequence : Option UInt64} {field : List Char}
    (h : field ∈ sequenceField sequence) : Plain field := by
  rw [sequenceField, Option.mem_toList, Option.map_eq_some_iff] at h
  obtain ⟨n, -, rfl⟩ := h
  exact plain_digits n.toNat

theorem withSequence_ofList {fields : List (List Char)} (hne : fields ≠ [])
    (sequence : Option UInt64) :
    withSequence (String.ofList (Text.join ',' fields)) sequence =
      String.ofList (Text.join ',' (fields ++ sequenceField sequence)) := by
  cases sequence with
  | none => simp [withSequence, sequenceField]
  | some n =>
      apply String.toList_injective
      simp [withSequence, sequenceField, Text.join_concat hne, Decimal.textOfNat]

theorem length_sequenceField_le (sequence : Option UInt64) :
    (sequenceField sequence).length ≤ 1 := by
  cases sequence <;> simp [sequenceField]

/-! ## Observations -/

namespace Observation

/-- The fields of an observation as they are written. -/
def fields (o : Observation) : List (List Char) :=
  [o.device.text.toList, (fieldOf ActionId.text o.previous).toList,
    (fieldOf Decimal.text o.outcome.delivery).toList,
    (fieldOf Decimal.text o.outcome.energy).toList] ++ sequenceField o.sequence

variable {o : Observation}

theorem encode_eq (o : Observation) : o.encode = String.ofList (Text.join ',' o.fields) := by
  rw [encode, fields, ← withSequence_ofList (List.cons_ne_nil _ _)]
  congr 1
  apply String.toList_injective
  simp [Text.join]

theorem plain_fields (h : Travels o.device) : ∀ field ∈ o.fields, Plain field := by
  intro field hfield
  simp only [fields, List.cons_append, List.nil_append, List.mem_cons] at hfield
  obtain rfl | rfl | rfl | rfl | hsequence := hfield
  · exact h.plain
  · exact plain_fieldOf plain_text_actionId _
  · exact plain_fieldOf plain_text _
  · exact plain_fieldOf plain_text _
  · exact plain_sequenceField hsequence

/-- Reading the text of an observation, whatever its outcome, gives the observation. -/
theorem decode_encode (h : Travels o.device) :
    Observation.decode (bytesOf o.encode) = .ok o := by
  have hne : o.fields ≠ [] := List.cons_ne_nil _ _
  have hsequence : (sequenceField o.sequence)[0]? = o.sequence.map fun n => digits n.toNat := by
    rw [sequenceField]
    cases o.sequence <;> rfl
  have hlength := length_sequenceField_le o.sequence
  have hfew : ¬maxObservationFields < (sequenceField o.sequence).length + 2 + 2 := by
    simp only [maxObservationFields]
    omega
  rw [encode_eq, decode, fields?_bytesOf hne (plain_fields h)]
  simp only [fields, List.cons_append, List.nil_append, List.length_cons, if_neg hfew,
    readDevice_of_travels h, readPrevious_fieldOf, List.getElem?_cons_succ, hsequence,
    readSequence_digits, List.getElem?_cons_zero, Option.bind_some, delivery?_fieldOf,
    energy_fieldOf]
  rfl

/-- A device that an observation was read of has a name that goes through a payload. -/
theorem travels_of_decode {payload : List UInt8} (h : Observation.decode payload = .ok o) :
    Travels o.device := by
  rw [Observation.decode] at h
  split at h
  next => cases h
  next device previous rest hfields =>
    split_ifs at h
    cases hdevice : readDevice device with
    | error cause =>
        rw [hdevice] at h
        cases h
    | ok id =>
        have htravels := travels_of_readDevice (ascii_of_fields? hfields List.mem_cons_self) hdevice
        cases hprevious : readPrevious previous with
        | error cause =>
            rw [hdevice, hprevious] at h
            cases h
        | ok action =>
            cases hsequence : readSequence rest[2]? with
            | error cause =>
                rw [hdevice, hprevious, hsequence] at h
                cases h
            | ok sequence =>
                rw [hdevice, hprevious, hsequence] at h
                cases h
                exact htravels
  next => cases h

end Observation

/-- A payload that is read as an observation and written again. -/
def normalized (payload : List UInt8) : Except Malformed (List UInt8) :=
  (Observation.decode payload).map fun o => bytesOf o.encode

/-- Writing an observation that was read loses nothing of it: whatever was missing, padded, a word
or beyond all bounds in its payload, it is read again from what was written, and to normalize a
payload twice is to normalize it once. The same is true of whatever else is observed of its device,
with each field there or not. -/
theorem observation_of_normalized {payload : List UInt8} {o : Observation}
    (h : Observation.decode payload = .ok o) :
    Observation.decode (bytesOf o.encode) = .ok o ∧
      normalized payload = .ok (bytesOf o.encode) ∧
      normalized (bytesOf o.encode) = .ok (bytesOf o.encode) ∧
      ∀ o' : Observation, o'.device = o.device →
        Observation.decode (bytesOf o'.encode) = .ok o' := by
  have htravels := Observation.travels_of_decode h
  have hback := Observation.decode_encode htravels
  refine ⟨hback, ?_, ?_, ?_⟩
  · rw [normalized, h]
    rfl
  · rw [normalized, hback]
    rfl
  · intro o' hdevice
    exact Observation.decode_encode (hdevice ▸ htravels)

/-- Spaces around each field, no previous action, a word for the delivery, an energy below all
bounds, a sequence number with a plus sign and zeros before it, and a line end; and of the same
device the greatest action, no delivery and no sequence number. -/
theorem observation_of_normalized_padded :
    let payload := " ed-4 , -,FAIL, -Infinity ,+007 \r\n".toList.map fun c => UInt8.ofNat c.toNat
    let o : Observation :=
      ⟨⟨"ed-4"⟩, none, ⟨some 0.0, some (Decimal.ofBits 0xfff0000000000000)⟩, some 7⟩
    let o' : Observation := ⟨o.device, some ⟨4294967295⟩, ⟨none, some 0.5⟩, none⟩
    Observation.decode payload = .ok o ∧ Observation.decode (bytesOf o.encode) = .ok o ∧
      Observation.decode (bytesOf o'.encode) = .ok o' := by
  intro payload o o'
  have h : Observation.decode payload = .ok o := by rfl
  obtain ⟨hback, -, -, hothers⟩ := observation_of_normalized h
  exact ⟨h, hback, hothers o' rfl⟩

/-! ## Decisions -/

namespace Decision

/-- The fields of a decision as they are written. -/
def fields (d : Decision) : List (List Char) :=
  [d.device.text.toList, d.action.text.toList] ++ sequenceField d.sequence

variable {d : Decision}

theorem encode_eq (d : Decision) : d.encode = String.ofList (Text.join ',' d.fields) := by
  rw [encode, fields, ← withSequence_ofList (List.cons_ne_nil _ _)]
  congr 1
  apply String.toList_injective
  simp [Text.join]

theorem plain_fields (h : Travels d.device) : ∀ field ∈ d.fields, Plain field := by
  intro field hfield
  simp only [fields, List.cons_append, List.nil_append, List.mem_cons] at hfield
  obtain rfl | rfl | hsequence := hfield
  · exact h.plain
  · exact plain_text_actionId d.action
  · exact plain_sequenceField hsequence

/-- Reading the text of a decision gives the decision. -/
theorem decode_encode (h : Travels d.device) : Decision.decode (bytesOf d.encode) = .ok d := by
  have hne : d.fields ≠ [] := List.cons_ne_nil _ _
  have hfew : ¬1 < (sequenceField d.sequence).length :=
    Nat.not_lt.mpr (length_sequenceField_le d.sequence)
  rw [encode_eq, decode, fields?_bytesOf hne (plain_fields h)]
  simp only [fields, List.cons_append, List.nil_append, if_neg hfew, readDevice_of_travels h,
    action?_text]
  obtain ⟨device, action, sequence⟩ := d
  cases sequence with
  | none => rfl
  | some n =>
      simp only [sequenceField, Option.map_some, Option.toList_some, sequence?_digits]
      rfl

/-- A name, two commas and two numbers. -/
theorem length_encode_le (h : Travels d.device) :
    (bytesOf d.encode).length ≤ DeviceId.maxLength + 32 := by
  have hname : d.device.text.toList.length ≤ DeviceId.maxLength := h.length_le
  have haction : d.action.text.toList.length ≤ 10 := by
    rw [toList_text_actionId]
    exact Decimal.length_digits_le (by decide) (d.action.index.toNat_lt.trans (by decide))
  rw [encode_eq, length_bytesOf_ofList (ascii_join (plain_fields h)), fields]
  cases d.sequence with
  | none =>
      simp only [sequenceField, Text.join, Option.map_none, Option.toList_none, List.append_nil,
        List.length_append, List.length_cons]
      omega
  | some n =>
      have hsequence : (digits n.toNat).length ≤ 20 :=
        Decimal.length_digits_le (by decide) (n.toNat_lt.trans (by decide))
      simp only [sequenceField, Text.join, Option.map_some, Option.toList_some, List.cons_append,
        List.nil_append, List.length_append, List.length_cons]
      omega

end Decision

end LinkTuner.Wire

import LinkTuner.Proofs.Decimal.Numerals
import LinkTuner.Proofs.Wire.Fields

/-!
# The grammar of observations

Which payloads are observations is said here without a reader: how a payload is laid out in fields,
and what each of the fields may be. Main statement: reading a payload gives an observation exactly
if the payload follows the grammar, and then the one that its fields say; otherwise the refusal
names the first rule that is broken. The fields that stand for the outcome are not part of any rule.
-/

namespace LinkTuner.Wire

/-! ## Layout -/

/-- The characters that end a line. -/
def isLineEnd (c : Char) : Bool := c == '\r' || c == '\n'

/-- A payload of given fields is ASCII text: pieces with commas between them and line ends after the
last, each piece a field with white space around it. -/
structure Layout (payload : List UInt8) (fields : List (List Char)) : Prop where
  ascii : ∀ b ∈ payload, b.toNat < 0x80
  pieces : ∃ pieces,
    Text.EndsWith isLineEnd (payload.map fun b => Char.ofNat b.toNat) (Text.join ',' pieces) ∧
      pieces ≠ [] ∧ (∀ piece ∈ pieces, ',' ∉ piece) ∧
      List.Forall₂ (Text.Encloses Text.isBlank) pieces fields

section

variable {payload : List UInt8} {fields : List (List Char)}

theorem ascii?_eq_some_iff {cs : List Char} : ascii? payload = some cs ↔
    (∀ b ∈ payload, b.toNat < 0x80) ∧ (payload.map fun b => Char.ofNat b.toNat) = cs := by
  rw [ascii?, Option.ite_none_right_eq_some, Option.some.injEq, List.all_eq_true]
  simp only [decide_eq_true_eq, UInt8.lt_iff_toNat_lt]
  rfl

theorem fields?_eq_some_iff : fields? payload = some fields ↔ Layout payload fields := by
  have hfields (pieces : List (List Char)) : pieces.map Text.trim = fields ↔
      List.Forall₂ (Text.Encloses Text.isBlank) pieces fields := by
    rw [← List.forall₂_eq_eq_eq, List.forall₂_map_left_iff]
    simp only [Text.trim, Text.trimBy_eq_iff]
  simp only [fields?, Option.map_eq_some_iff, ascii?_eq_some_iff, hfields]
  constructor
  · rintro ⟨cs, ⟨hascii, rfl⟩, hpieces⟩
    obtain ⟨hne, hcomma, hjoin⟩ := Text.split_eq_iff.mp (Eq.refl (Text.split ',' _))
    exact ⟨hascii, _, Text.trimEndBy_eq_iff.mp hjoin.symm, hne, hcomma, hpieces⟩
  · rintro ⟨hascii, pieces, hends, hne, hcomma, hpieces⟩
    refine ⟨_, ⟨hascii, rfl⟩, ?_⟩
    have hsplit := Text.split_eq_iff.mpr ⟨hne, hcomma, (Text.trimEndBy_eq_iff.mpr hends).symm⟩
    exact hsplit ▸ hpieces

theorem fields?_eq_none_iff : fields? payload = none ↔ ∃ b ∈ payload, 0x80 ≤ b.toNat := by
  rw [fields?, Option.map_eq_none_iff, ascii?]
  simp [UInt8.le_iff_toNat_le]

theorem Layout.ascii_field (h : Layout payload fields) {field : List Char}
    (hfield : field ∈ fields) : Ascii field :=
  ascii_of_fields? (fields?_eq_some_iff.mpr h) hfield

theorem Layout.comma_not_mem (h : Layout payload fields) {field : List Char}
    (hfield : field ∈ fields) : ',' ∉ field := by
  obtain ⟨cs, -, rfl⟩ := Option.map_eq_some_iff.mp (fields?_eq_some_iff.mpr h)
  obtain ⟨piece, hpiece, rfl⟩ := List.mem_map.mp hfield
  exact fun hc => Text.not_mem_of_mem_split hpiece (Text.mem_of_mem_trimBy hc)

end

/-! ## Fields -/

/-- The name of a device has one to sixty-four characters, none of them white space or a control
character. -/
structure Names (field : List Char) (id : DeviceId) : Prop where
  text : id.text = String.ofList field
  length : 1 ≤ field.length ∧ field.length ≤ 64
  visible : ∀ c ∈ field, Text.isBlank c = false ∧ Text.isControl c = false

/-- What the device applied before: nothing if the field is empty or a dash, or the action of the
number that the field is. -/
inductive Reports : List Char → Option ActionId → Prop
  | empty : Reports [] none
  | dash : Reports ['-'] none
  | action {field : List Char} {n : ℕ} (numeral : Decimal.Numeral field n) (range : n < 2 ^ 32) :
    Reports field (some (.ofNat n))

/-- The sequence number, which may be left out or empty. -/
inductive Numbers : Option (List Char) → Option UInt64 → Prop
  | absent : Numbers none none
  | empty : Numbers (some []) none
  | number {field : List Char} {n : ℕ} (numeral : Decimal.Numeral field n) (range : n < 2 ^ 64) :
    Numbers (some field) (some (.ofNat n))

section

variable {field : List Char}

theorem isValid_ofList_iff (hascii : Ascii field) (hcomma : ',' ∉ field) :
    DeviceId.isValid (String.ofList field) = true ↔ (1 ≤ field.length ∧ field.length ≤ 64) ∧
      ∀ c ∈ field, Text.isBlank c = false ∧ Text.isControl c = false := by
  have hsize : (String.ofList field).utf8ByteSize = field.length := by
    rw [← length_bytesOf, length_bytesOf_ofList hascii]
  have hempty : (String.ofList field).isEmpty = false ↔ 1 ≤ field.length := by
    rw [String.isEmpty_eq_false_iff, ne_eq, ← String.utf8ByteSize_eq_zero_iff, hsize]
    omega
  have hallows (c : Char) (hc : c ∈ field) : DeviceId.allows c = true ↔
      Text.isBlank c = false ∧ Text.isControl c = false := by
    have hne : c ≠ ',' := fun heq => hcomma (heq ▸ hc)
    simp [DeviceId.allows, hne]
  simp only [DeviceId.isValid, DeviceId.maxLength, Bool.and_eq_true, Bool.not_eq_true', hempty,
    hsize, decide_eq_true_eq, String.toList_ofList, List.all_eq_true]
  exact and_congr_right fun _ => forall₂_congr hallows

theorem readDevice_eq_ok_iff (hascii : Ascii field) (hcomma : ',' ∉ field) {id : DeviceId} :
    readDevice field = .ok id ↔ Names field id := by
  have hname : DeviceId.ofText? (String.ofList field) = some id ↔ Names field id := by
    rw [DeviceId.ofText?_eq_some_iff, isValid_ofList_iff hascii hcomma]
    exact ⟨fun ⟨⟨hlength, hvisible⟩, htext⟩ => ⟨htext, hlength, hvisible⟩,
      fun h => ⟨⟨h.length, h.visible⟩, h.text⟩⟩
  rw [← hname, readDevice]
  split <;> simp [*]

theorem readDevice_eq_error (hascii : Ascii field) (hcomma : ',' ∉ field)
    (h : ¬∃ id, Names field id) :
    readDevice field = .error (.device (String.ofList field)) := by
  cases hread : DeviceId.ofText? (String.ofList field) with
  | none => rw [readDevice, hread]
  | some id =>
      have hid : readDevice field = .ok id := by rw [readDevice, hread]
      exact absurd ⟨id, (readDevice_eq_ok_iff hascii hcomma).mp hid⟩ h

theorem action?_eq_some_iff {a : ActionId} : action? field = some a ↔
    ∃ n, Decimal.Numeral field n ∧ n < 2 ^ 32 ∧ .ofNat n = a := by
  simp only [action?, Option.map_eq_some_iff, Decimal.unsigned?_eq_some_iff, and_assoc]
  rfl

theorem sequence?_eq_some_iff {n : UInt64} : sequence? field = some n ↔
    ∃ k, Decimal.Numeral field k ∧ k < 2 ^ 64 ∧ .ofNat k = n := by
  simp only [sequence?, Option.map_eq_some_iff, Decimal.unsigned?_eq_some_iff, and_assoc]
  rfl

theorem readPrevious_eq_ok_iff {previous : Option ActionId} :
    readPrevious field = .ok previous ↔ Reports field previous := by
  constructor
  · intro h
    unfold readPrevious at h
    split_ifs at h with hnone
    · cases h
      obtain rfl | rfl := hnone
      · exact .empty
      · exact .dash
    · split at h
      next a ha =>
        cases h
        obtain ⟨n, hn, hlt, rfl⟩ := action?_eq_some_iff.mp ha
        exact .action hn hlt
      next => cases h
  · rintro (_ | _ | ⟨hn, hlt⟩)
    · rfl
    · rfl
    · have ha := action?_eq_some_iff.mpr ⟨_, hn, hlt, rfl⟩
      -- Neither of the marks for nothing is a numeral.
      have hnone : ¬(field = [] ∨ field = ['-']) := by
        rintro (rfl | rfl) <;> cases ha
      simp only [readPrevious, if_neg hnone, ha]

theorem readPrevious_eq_error (h : ¬∃ previous, Reports field previous) :
    readPrevious field = .error (.previousAction (String.ofList field)) := by
  cases hread : readPrevious field with
  | ok previous => exact absurd ⟨previous, readPrevious_eq_ok_iff.mp hread⟩ h
  | error cause =>
      unfold readPrevious at hread
      split_ifs at hread
      split at hread
      · cases hread
      · exact hread.symm

theorem readSequence_eq_ok_iff {field? : Option (List Char)} {sequence : Option UInt64} :
    readSequence field? = .ok sequence ↔ Numbers field? sequence := by
  constructor
  · intro h
    unfold readSequence at h
    split at h
    · cases h
      exact .absent
    · cases h
      exact .empty
    · split at h
      next n hn =>
        cases h
        obtain ⟨k, hk, hlt, rfl⟩ := sequence?_eq_some_iff.mp hn
        exact .number hk hlt
      next => cases h
  · rintro (_ | _ | ⟨hk, hlt⟩)
    · rfl
    · rfl
    · rename_i field k
      have hn := sequence?_eq_some_iff.mpr ⟨_, hk, hlt, rfl⟩
      cases field with
      | nil => cases hn
      | cons c field => simp only [readSequence, hn]

theorem readSequence_eq_error (h : ¬∃ sequence, Numbers (some field) sequence) :
    readSequence (some field) = .error (.observationSequence (String.ofList field)) := by
  cases hread : readSequence (some field) with
  | ok sequence => exact absurd ⟨sequence, readSequence_eq_ok_iff.mp hread⟩ h
  | error cause =>
      unfold readSequence at hread
      split at hread
      · cases hread
      · cases hread
      · rename_i heq
        cases heq
        split at hread
        · cases hread
        · exact hread.symm

/-- A sequence number that is left out is read as an empty one. -/
theorem readSequence_getD (field? : Option (List Char)) :
    readSequence (some (field?.getD [])) = readSequence field? := by
  cases field? <;> rfl

end

/-! ## Observations -/

namespace Observation

/-- An observation has two to five fields. -/
def Counted (fields : List (List Char)) : Prop := 2 ≤ fields.length ∧ fields.length ≤ 5

instance : DecidablePred Counted := fun fields =>
  inferInstanceAs (Decidable (2 ≤ fields.length ∧ fields.length ≤ 5))

/-- What the fields of an observation say. The outcome is what can be made of the third and the
fourth field, whatever they are and whether or not they are there. -/
structure Says (fields : List (List Char)) (o : Observation) : Prop where
  count : Counted fields
  device : ∃ field, fields[0]? = some field ∧ Names field o.device
  previous : ∃ field, fields[1]? = some field ∧ Reports field o.previous
  outcome : o.outcome = ⟨fields[2]?.bind delivery?, fields[3]?.bind Decimal.float?⟩
  sequence : Numbers fields[4]? o.sequence

/-- A payload with as many fields as an observation has, the first two of them by themselves. -/
structure CutInto (payload : List UInt8) (device previous : List Char) (rest : List (List Char)) :
    Prop where
  layout : Layout payload (device :: previous :: rest)
  count : Counted (device :: previous :: rest)

/-- The first rule that a payload breaks, with the refusal that says so. -/
inductive Breaks (payload : List UInt8) : Malformed → Prop
  | ascii (high : ∃ b ∈ payload, 0x80 ≤ b.toNat) : Breaks payload .notAscii
  | count {fields : List (List Char)} (layout : Layout payload fields) (many : ¬Counted fields) :
    Breaks payload (.observationFields fields.length)
  | device {device previous : List Char} {rest : List (List Char)}
    (cut : CutInto payload device previous rest) (unnamed : ¬∃ id, Names device id) :
    Breaks payload (.device (String.ofList device))
  | previous {device previous : List Char} {rest : List (List Char)}
    (cut : CutInto payload device previous rest) (named : ∃ id, Names device id)
    (unknown : ¬∃ a, Reports previous a) : Breaks payload (.previousAction (String.ofList previous))
  | sequence {device previous sequence : List Char} {rest : List (List Char)}
    (cut : CutInto payload device previous rest) (named : ∃ id, Names device id)
    (reported : ∃ a, Reports previous a) (fifth : rest[2]? = some sequence)
    (unnumbered : ¬∃ n, Numbers (some sequence) n) :
    Breaks payload (.observationSequence (String.ofList sequence))

variable {payload : List UInt8} {fields : List (List Char)} {o : Observation}

theorem Counted.eq_cons_cons (h : Counted fields) :
    ∃ device previous rest, fields = device :: previous :: rest := by
  have htwo := h.1
  match fields, htwo with
  | device :: previous :: rest, _ => exact ⟨device, previous, rest, rfl⟩

theorem decode_of_not_counted (h : Layout payload fields) (hcount : ¬Counted fields) :
    decode payload = .error (.observationFields fields.length) := by
  rw [decode, fields?_eq_some_iff.mpr h]
  match fields with
  | [] | [_] => rfl
  | device :: previous :: rest =>
      have hmany : maxObservationFields < rest.length + 2 := by
        simp only [Counted, List.length_cons] at hcount
        rw [maxObservationFields]
        omega
      exact if_pos hmany

section

variable {device previous : List Char} {rest : List (List Char)}

/-- The fields that must be readable are read from left to right. -/
theorem decode_of_cut (h : CutInto payload device previous rest) :
    decode payload = do
      let device ← readDevice device
      let previous ← readPrevious previous
      let sequence ← readSequence rest[2]?
      return ⟨device, previous, ⟨rest[0]?.bind delivery?, rest[1]?.bind Decimal.float?⟩,
        sequence⟩ := by
  have hcount := h.count
  simp only [Counted, List.length_cons] at hcount
  have hfew : ¬maxObservationFields < rest.length + 2 := by
    rw [maxObservationFields]
    omega
  rw [decode, fields?_eq_some_iff.mpr h.layout]
  exact if_neg hfew

theorem CutInto.readDevice_eq_ok (h : CutInto payload device previous rest) {id : DeviceId}
    (hid : Names device id) : readDevice device = .ok id :=
  have hmem := List.mem_cons_self
  (readDevice_eq_ok_iff (h.layout.ascii_field hmem) (h.layout.comma_not_mem hmem)).mpr hid

theorem CutInto.readDevice_eq_error (h : CutInto payload device previous rest)
    (hdevice : ¬∃ id, Names device id) :
    readDevice device = .error (.device (String.ofList device)) :=
  have hmem := List.mem_cons_self
  Wire.readDevice_eq_error (h.layout.ascii_field hmem) (h.layout.comma_not_mem hmem) hdevice

end

theorem Says.decode_eq (hsaid : Says fields o) (h : Layout payload fields) :
    decode payload = .ok o := by
  obtain ⟨device, previous, rest, rfl⟩ := hsaid.count.eq_cons_cons
  obtain ⟨field, ⟨⟩, hdevice⟩ := hsaid.device
  obtain ⟨field, ⟨⟩, hprevious⟩ := hsaid.previous
  have hcut : CutInto payload device previous rest := ⟨h, hsaid.count⟩
  have hsequence : readSequence rest[2]? = .ok o.sequence :=
    readSequence_eq_ok_iff.mpr hsaid.sequence
  have houtcome : o.outcome = ⟨rest[0]?.bind delivery?, rest[1]?.bind Decimal.float?⟩ :=
    hsaid.outcome
  rw [decode_of_cut hcut, hcut.readDevice_eq_ok hdevice, readPrevious_eq_ok_iff.mpr hprevious,
    hsequence, ← houtcome]
  rfl

theorem Breaks.decode_eq {cause : Malformed} (h : Breaks payload cause) :
    decode payload = .error cause := by
  cases h with
  | ascii hhigh => rw [decode, fields?_eq_none_iff.mpr hhigh]
  | count h hmany => exact decode_of_not_counted h hmany
  | device hcut hunnamed =>
      rw [decode_of_cut hcut, hcut.readDevice_eq_error hunnamed]
      rfl
  | previous hcut hnamed hunknown =>
      obtain ⟨id, hid⟩ := hnamed
      rw [decode_of_cut hcut, hcut.readDevice_eq_ok hid, readPrevious_eq_error hunknown]
      rfl
  | sequence hcut hnamed hreported hfifth hunnumbered =>
      obtain ⟨id, hid⟩ := hnamed
      obtain ⟨a, ha⟩ := hreported
      rw [decode_of_cut hcut, hcut.readDevice_eq_ok hid, readPrevious_eq_ok_iff.mpr ha, hfifth,
        readSequence_eq_error hunnumbered]
      rfl

/-- A payload says something or breaks some rule. -/
theorem says_or_breaks (payload : List UInt8) :
    (∃ fields o, Layout payload fields ∧ Says fields o) ∨ ∃ cause, Breaks payload cause := by
  cases hfields : fields? payload with
  | none => exact .inr ⟨_, .ascii (fields?_eq_none_iff.mp hfields)⟩
  | some fields =>
      have h := fields?_eq_some_iff.mp hfields
      by_cases hcount : Counted fields
      swap
      · exact .inr ⟨_, .count h hcount⟩
      obtain ⟨device, previous, rest, rfl⟩ := hcount.eq_cons_cons
      have hcut : CutInto payload device previous rest := ⟨h, hcount⟩
      by_cases hdevice : ∃ id, Names device id
      swap
      · exact .inr ⟨_, .device hcut hdevice⟩
      by_cases hprevious : ∃ a, Reports previous a
      swap
      · exact .inr ⟨_, .previous hcut hdevice hprevious⟩
      by_cases hsequence : ∃ n, Numbers rest[2]? n
      · obtain ⟨id, hid⟩ := hdevice
        obtain ⟨a, ha⟩ := hprevious
        obtain ⟨n, hn⟩ := hsequence
        exact .inl ⟨_, ⟨id, a, _, n⟩, h, hcount, ⟨device, rfl, hid⟩, ⟨previous, rfl, ha⟩, rfl, hn⟩
      · cases hfifth : rest[2]? with
        | none => exact absurd ⟨none, hfifth ▸ .absent⟩ hsequence
        | some sequence =>
            exact .inr ⟨_, .sequence hcut hdevice hprevious hfifth (hfifth ▸ hsequence)⟩

theorem decode_eq_ok_iff :
    decode payload = .ok o ↔ ∃ fields, Layout payload fields ∧ Says fields o := by
  constructor
  · intro hread
    obtain ⟨fields, said, h, hsaid⟩ | ⟨cause, hbreaks⟩ := says_or_breaks payload
    · obtain rfl : said = o := Except.ok.inj ((hsaid.decode_eq h).symm.trans hread)
      exact ⟨fields, h, hsaid⟩
    · cases hbreaks.decode_eq.symm.trans hread
  · rintro ⟨fields, h, hsaid⟩
    exact hsaid.decode_eq h

theorem decode_eq_error_iff {cause : Malformed} :
    decode payload = .error cause ↔ Breaks payload cause := by
  constructor
  · intro hread
    obtain ⟨fields, o, h, hsaid⟩ | ⟨first, hbreaks⟩ := says_or_breaks payload
    · cases (hsaid.decode_eq h).symm.trans hread
    · obtain rfl : first = cause := Except.error.inj (hbreaks.decode_eq.symm.trans hread)
      exact hbreaks
  · exact Breaks.decode_eq

/-- Everything in an observation but its outcome. -/
def essentials (o : Observation) : DeviceId × Option ActionId × Option UInt64 :=
  (o.device, o.previous, o.sequence)

/-- Payloads that differ in the fields of the outcome alone, in what these hold or in whether they
are there. -/
structure SameButOutcome (payload other : List UInt8) (fields others : List (List Char)) :
    Prop where
  layout : Layout payload fields
  layout_other : Layout other others
  count : Counted fields
  count_other : Counted others
  device : fields[0]? = others[0]?
  previous : fields[1]? = others[1]?
  sequence : fields[4]?.getD [] = others[4]?.getD []

theorem decode_sameButOutcome {other : List UInt8} {others : List (List Char)}
    (h : SameButOutcome payload other fields others) :
    (decode payload).map essentials = (decode other).map essentials := by
  obtain ⟨device, previous, rest, rfl⟩ := h.count.eq_cons_cons
  obtain ⟨device', previous', rest', rfl⟩ := h.count_other.eq_cons_cons
  obtain rfl : device = device' := Option.some.inj h.device
  obtain rfl : previous = previous' := Option.some.inj h.previous
  have hsequence : readSequence rest[2]? = readSequence rest'[2]? := by
    rw [← readSequence_getD, ← readSequence_getD rest'[2]?]
    exact congrArg (fun field => readSequence (some field)) h.sequence
  rw [decode_of_cut ⟨h.layout, h.count⟩, decode_of_cut ⟨h.layout_other, h.count_other⟩, hsequence]
  cases readDevice device with
  | error cause => rfl
  | ok id =>
      cases readPrevious previous with
      | error cause => rfl
      | ok a => cases readSequence rest'[2]? <;> rfl

/-- A payload is an observation exactly if it follows the grammar, and then the one that its fields
say. Otherwise it is malformed, by the first rule that it breaks. What stands in the fields of the
outcome, and whether they are there, never decides whether a payload is read, nor which device,
which action and which sequence number are read from it. -/
theorem decode_exactly_the_grammar (payload : List UInt8) :
    (∀ o, decode payload = .ok o ↔ ∃ fields, Layout payload fields ∧ Says fields o) ∧
    (∀ cause, decode payload = .error cause ↔ Breaks payload cause) ∧
    ∀ fields other others, SameButOutcome payload other fields others →
      (decode payload).map essentials = (decode other).map essentials :=
  ⟨fun _ => decode_eq_ok_iff, fun _ => decode_eq_error_iff, fun _ _ _ => decode_sameButOutcome⟩

/-- A report of the seventh action, with words for an outcome that say nothing. -/
def unclear : List UInt8 := ("ed-4,+07,?,maybe".toList).map fun c => UInt8.ofNat c.toNat

/-- The same report on a line of its own, without an outcome. -/
def bare : List UInt8 := (" ed-4 ,+07\r\n".toList).map fun c => UInt8.ofNat c.toNat

/-- Words that say nothing in place of an outcome are read like none at all. -/
theorem decode_exactly_the_grammar_unclear :
    (∃ o, decode unclear = .ok o ∧ essentials o = (⟨"ed-4"⟩, some (.ofNat 7), none)) ∧
      (decode unclear).map essentials = (decode bare).map essentials := by
  let device := ['e', 'd', '-', '4']
  let previous := ['+', '0', '7']
  let energy := ['m', 'a', 'y', 'b', 'e']
  have hunclear : Layout unclear [device, previous, ['?'], energy] :=
    fields?_eq_some_iff.mp (by decide +kernel)
  have hbare : Layout bare [device, previous] := fields?_eq_some_iff.mp (by decide +kernel)
  have hname : Names device ⟨"ed-4"⟩ :=
    ⟨rfl, by decide, by simp [device, Text.isBlank, Text.isControl]⟩
  have hvalue : Decimal.valueOf ['0', '7'] = 7 := by
    rw [Decimal.valueOf_cons, Decimal.valueOf_cons]
    rfl
  have hreport : Reports previous (some (.ofNat 7)) :=
    .action ⟨['0', '7'], .inr rfl, by decide, by simp, hvalue⟩ (by decide)
  obtain ⟨outcome, hsaid⟩ : ∃ outcome,
      Says [device, previous, ['?'], energy] ⟨⟨"ed-4"⟩, some (.ofNat 7), outcome, none⟩ :=
    ⟨_, by decide, ⟨_, rfl, hname⟩, ⟨_, rfl, hreport⟩, rfl, .absent⟩
  have hdiffer : SameButOutcome unclear bare _ _ :=
    ⟨hunclear, hbare, by decide, by decide, rfl, rfl, rfl⟩
  obtain ⟨hok, -, hsame⟩ := decode_exactly_the_grammar unclear
  exact ⟨⟨_, (hok _).mpr ⟨_, hunclear, hsaid⟩, rfl⟩, hsame _ _ _ hdiffer⟩

end Observation

end LinkTuner.Wire

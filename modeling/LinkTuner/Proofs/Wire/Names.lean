import LinkTuner.Proofs.Wire.Messages

/-!
# Names that go through a message

A device is accepted under any name without commas, white space and control characters, but a
payload is read only if each of its bytes is a character of its own. Main statement: an accepted
name goes through a message, in either direction, exactly when it is ASCII text; a message with any
other name is written but refused by whoever reads it.
-/

namespace LinkTuner.Wire

/-! ## Text beyond ASCII -/

theorem bytesOf_eq_flatMap (s : String) :
    bytesOf s = s.toList.flatMap String.utf8EncodeChar := by
  conv => lhs; rw [← String.ofList_toList (s := s)]
  rw [bytesOf_eq, String.toByteArray_ofList]
  exact List.toList_data_toByteArray

/-- Every character of more than one byte ends with a byte beyond ASCII. -/
theorem exists_high_byte {c : Char} (h : 0x80 ≤ c.toNat) :
    ∃ b ∈ String.utf8EncodeChar c, 0x80 ≤ b.toNat := by
  have hc : ¬c.val.toNat ≤ 127 := Nat.not_le.mpr h
  refine ⟨UInt8.ofNat (c.val.toNat % 64 + 128), ?_, ?_⟩
  · rw [String.utf8EncodeChar, if_neg hc]
    split_ifs <;> simp
  · rw [UInt8.toNat_ofNat']
    omega

theorem ascii?_bytesOf_eq_none {s : String} (h : ¬Ascii s.toList) : ascii? (bytesOf s) = none := by
  obtain ⟨c, hc, hhigh⟩ : ∃ c ∈ s.toList, 0x80 ≤ c.toNat := by
    simpa only [Ascii, not_forall, Nat.not_lt, exists_prop] using h
  obtain ⟨b, hb, hbyte⟩ := exists_high_byte hhigh
  have hmem : b ∈ bytesOf s := by
    rw [bytesOf_eq_flatMap]
    exact List.mem_flatMap_of_mem hc hb
  rw [ascii?, if_neg]
  intro hall
  have hlow : b < 0x80 := of_decide_eq_true (List.all_eq_true.mp hall b hmem)
  rw [UInt8.lt_iff_toNat_lt] at hlow
  exact absurd hlow (Nat.not_lt.mpr hbyte)

/-- Text with a field beyond ASCII cannot be cut into fields again. -/
theorem fields?_join_eq_none {fields : List (List Char)} {field : List Char}
    (hfield : field ∈ fields) (h : ¬Ascii field) :
    fields? (bytesOf (String.ofList (Text.join ',' fields))) = none := by
  have hjoin : ¬Ascii (String.ofList (Text.join ',' fields)).toList := by
    rw [String.toList_ofList]
    exact fun hall => h fun c hc => hall c (Text.mem_join_of_mem hfield hc)
  rw [fields?, ascii?_bytesOf_eq_none hjoin, Option.map_none]

/-! ## Messages of a device -/

theorem Decision.decode_encode_of_not_ascii {d : Decision} (h : ¬Ascii d.device.text.toList) :
    Decision.decode (bytesOf d.encode) = .error .notAscii := by
  have hfield : d.device.text.toList ∈ d.fields := List.mem_cons_self
  rw [Decision.encode_eq, Decision.decode, fields?_join_eq_none hfield h]

theorem Observation.decode_encode_of_not_ascii {o : Observation}
    (h : ¬Ascii o.device.text.toList) :
    Observation.decode (bytesOf o.encode) = .error .notAscii := by
  have hfield : o.device.text.toList ∈ o.fields := List.mem_cons_self
  rw [Observation.encode_eq, Observation.decode, fields?_join_eq_none hfield h]

/-- An accepted name goes through unchanged exactly when it is ASCII text. -/
theorem travels_iff {raw : String} {id : DeviceId} (h : DeviceId.ofText? raw = some id) :
    Travels id ↔ Ascii raw.toList := by
  obtain ⟨hvalid, rfl⟩ := DeviceId.ofText?_eq_some_iff.mp h
  exact ⟨Travels.ascii, fun hascii => ⟨hvalid, hascii⟩⟩

/-- Whatever is decided for a device with an accepted name, and whatever is observed of it, is read
from its own message if and only if the name is ASCII text. Any other name makes the message one
that is not ASCII. -/
theorem accepted_name_travels_iff_ascii {raw : String} {id : DeviceId}
    (h : DeviceId.ofText? raw = some id) (d : Decision) (hd : d.device = id) (o : Observation)
    (ho : o.device = id) :
    (Decision.decode (bytesOf d.encode) = .ok d ↔ Ascii raw.toList) ∧
      (Observation.decode (bytesOf o.encode) = .ok o ↔ Ascii raw.toList) ∧
      (¬Ascii raw.toList →
        Decision.decode (bytesOf d.encode) = .error .notAscii ∧
          Observation.decode (bytesOf o.encode) = .error .notAscii) := by
  have htext : id.text = raw := (DeviceId.ofText?_eq_some_iff.mp h).2
  by_cases hascii : Ascii raw.toList
  · have htravels : Travels id := (travels_iff h).mpr hascii
    have hdecision := Decision.decode_encode (d := d) (hd ▸ htravels)
    have hobservation := Observation.decode_encode (o := o) (ho ▸ htravels)
    simp only [hdecision, hobservation, hascii, not_true_eq_false, false_implies, and_self]
  · have hdecision := Decision.decode_encode_of_not_ascii (d := d) (by rwa [hd, htext])
    have hobservation := Observation.decode_encode_of_not_ascii (o := o) (by rwa [ho, htext])
    simp only [hdecision, hobservation, hascii, reduceCtorEq, not_false_eq_true, true_implies,
      and_self]

/-- Sixty-four bytes of plain text, and a name with one letter of two bytes. -/
theorem accepted_name_travels_iff_ascii_long_and_accented :
    let long : DeviceId := ⟨String.ofList (List.replicate DeviceId.maxLength 'x')⟩
    let accented : DeviceId := ⟨"z\u00e4hler-7"⟩
    let decision (id : DeviceId) : Decision := ⟨id, ⟨4294967295⟩, some 18446744073709551615⟩
    let observation (id : DeviceId) : Observation := ⟨id, none, .missing, some 7⟩
    DeviceId.ofText? long.text = some long ∧ DeviceId.ofText? accented.text = some accented ∧
      Decision.decode (bytesOf (decision long).encode) = .ok (decision long) ∧
      Observation.decode (bytesOf (observation long).encode) = .ok (observation long) ∧
      Decision.decode (bytesOf (decision accented).encode) = .error .notAscii ∧
      Observation.decode (bytesOf (observation accented).encode) = .error .notAscii := by
  intro long accented decision observation
  have hlong : DeviceId.ofText? long.text = some long := by decide +kernel
  have haccented : DeviceId.ofText? accented.text = some accented := by decide +kernel
  have hplain : Ascii long.text.toList := by
    rw [String.toList_ofList]
    intro c hc
    rw [List.eq_of_mem_replicate hc]
    decide
  have hbeyond : ¬Ascii accented.text.toList := by
    simp [Ascii, accented]
  obtain ⟨hdecision, hobservation, -⟩ :=
    accepted_name_travels_iff_ascii hlong (decision long) rfl (observation long) rfl
  obtain ⟨-, -, hrefused⟩ :=
    accepted_name_travels_iff_ascii haccented (decision accented) rfl (observation accented) rfl
  exact ⟨hlong, haccented, hdecision.mpr hplain, hobservation.mpr hplain, hrefused hbeyond⟩

/-- A letter that is accepted as a name and refused in every message. -/
theorem accented_letter_accepted_but_refused :
    DeviceId.ofText? "\u00e9" = some ⟨"\u00e9"⟩ ∧
      Decision.decode (bytesOf (Decision.encode ⟨⟨"\u00e9"⟩, ⟨1⟩, none⟩)) = .error .notAscii ∧
      Observation.decode (bytesOf (Observation.encode ⟨⟨"\u00e9"⟩, none, .missing, none⟩)) =
        .error .notAscii := by
  have hbeyond : ¬Ascii "\u00e9".toList := by
    simp [Ascii]
  exact ⟨rfl, Decision.decode_encode_of_not_ascii hbeyond,
    Observation.decode_encode_of_not_ascii hbeyond⟩

end LinkTuner.Wire

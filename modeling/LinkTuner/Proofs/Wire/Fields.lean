import LinkTuner.Wire.Message
import LinkTuner.Proofs.Text.Pieces

/-!
# Fields of a payload

A payload is written as the text of its fields with commas between. Plain text has nothing in it
that cuts or trims, so fields of plain text are read as they were written.
-/

namespace LinkTuner.Wire

/-! ## Bytes of text -/

theorem toList_loop_eq (bytes : ByteArray) (i : Nat) (read : List UInt8) :
    ByteArray.toList.loop bytes i read = read.reverse ++ bytes.data.toList.drop i := by
  fun_induction ByteArray.toList.loop bytes i read with
  | case1 i read h ih =>
      have hi : i < bytes.data.toList.length := by simpa using h
      rw [ih, List.drop_eq_getElem_cons hi]
      simp [ByteArray.get!, h]
  | case2 i read h =>
      rw [List.drop_eq_nil_of_le (by simpa using Nat.le_of_not_lt h), List.append_nil]

theorem bytesOf_eq (s : String) : bytesOf s = s.toByteArray.data.toList := by
  rw [bytesOf, String.toUTF8_eq_toByteArray, ByteArray.toList, toList_loop_eq]
  rfl

/-- The number of bytes of a text. -/
theorem length_bytesOf (s : String) : (bytesOf s).length = s.utf8ByteSize := by
  rw [bytesOf_eq]
  rfl

/-- Text of which each character is one byte. -/
def Ascii (cs : List Char) : Prop := ∀ c ∈ cs, c.toNat < 0x80

theorem bytesOf_ofList {cs : List Char} (h : Ascii cs) :
    bytesOf (String.ofList cs) = cs.map fun c => UInt8.ofNat c.toNat := by
  rw [bytesOf_eq, String.toByteArray_ofList]
  induction cs with
  | nil => rfl
  | cons c cs ih =>
      obtain ⟨hc, hcs⟩ := List.forall_mem_cons.mp h
      have hsize : c.utf8Size = 1 := by
        rw [Char.utf8Size_eq_one_iff, UInt32.le_iff_toNat_le]
        exact Nat.le_of_lt_succ hc
      rw [List.utf8Encode_cons, List.utf8Encode_singleton,
        String.utf8EncodeChar_eq_singleton hsize, ByteArray.toList_data_append, ih hcs]
      rfl

theorem length_bytesOf_ofList {cs : List Char} (h : Ascii cs) :
    (bytesOf (String.ofList cs)).length = cs.length := by
  rw [bytesOf_ofList h, List.length_map]

theorem ascii?_bytesOf {cs : List Char} (h : Ascii cs) :
    ascii? (bytesOf (String.ofList cs)) = some cs := by
  have hbyte (c : Char) (hc : c ∈ cs) : (UInt8.ofNat c.toNat).toNat = c.toNat := by
    rw [UInt8.toNat_ofNat', Nat.mod_eq_of_lt (Nat.lt_trans (h c hc) (by decide))]
  rw [bytesOf_ofList h, ascii?, if_pos]
  · rw [List.map_map, Option.some.injEq]
    conv => rhs; rw [← List.map_id cs]
    apply List.map_congr_left
    intro c hc
    rw [Function.comp_apply, hbyte c hc, Char.ofNat_toNat, id]
  · simp only [List.all_map, List.all_eq_true, Function.comp_apply, decide_eq_true_eq]
    intro c hc
    rw [UInt8.lt_iff_toNat_lt, hbyte c hc]
    exact h c hc

theorem toNat_ofNat_of_lt {n : Nat} (h : n < 0x80) : (Char.ofNat n).toNat = n := by
  rw [Char.ofNat, dif_pos (.inl (Nat.lt_trans h (by decide)))]
  rfl

theorem ascii_of_ascii? {payload : List UInt8} {cs : List Char} (h : ascii? payload = some cs) :
    Ascii cs := by
  rw [ascii?, Option.ite_none_right_eq_some] at h
  obtain ⟨hall, hcs⟩ := h
  rw [← Option.some.inj hcs]
  intro c hc
  obtain ⟨b, hb, rfl⟩ := List.mem_map.mp hc
  have hb : b < 0x80 := of_decide_eq_true (List.all_eq_true.mp hall b hb)
  rw [UInt8.lt_iff_toNat_lt] at hb
  rw [toNat_ofNat_of_lt hb]
  exact hb

/-! ## Plain fields -/

/-- A character at which nothing is cut or trimmed. -/
def PlainChar (c : Char) : Prop := c.toNat < 0x80 ∧ c ≠ ',' ∧ Text.isBlank c = false

/-- Text of such characters. -/
def Plain (field : List Char) : Prop := ∀ c ∈ field, PlainChar c

theorem ascii_join {fields : List (List Char)} (h : ∀ field ∈ fields, Plain field) :
    Ascii (Text.join ',' fields) := by
  intro c hc
  obtain rfl | ⟨field, hfield, hc⟩ := Text.mem_join hc
  · decide
  · exact (h field hfield c hc).1

theorem fields?_bytesOf {fields : List (List Char)} (hne : fields ≠ [])
    (h : ∀ field ∈ fields, Plain field) :
    fields? (bytesOf (String.ofList (Text.join ',' fields))) = some fields := by
  -- A line end is white space, of which there is none.
  have hends (c : Char) (hc : c ∈ Text.join ',' fields) : (c == '\r' || c == '\n') = false := by
    have hblank : Text.isBlank c = false := by
      obtain rfl | ⟨field, hfield, hc⟩ := Text.mem_join hc
      · decide
      · exact (h field hfield c hc).2.2
    rw [Bool.or_eq_false_iff, beq_eq_false_iff_ne, beq_eq_false_iff_ne]
    constructor
    · rintro rfl
      cases hblank
    · rintro rfl
      cases hblank
  have htrim : fields.map Text.trim = fields := by
    conv => rhs; rw [← List.map_id fields]
    exact List.map_congr_left fun field hfield =>
      Text.trimBy_eq_self fun c hc => (h field hfield c hc).2.2
  rw [fields?, ascii?_bytesOf (ascii_join h), Option.map_some,
    Text.trimEndBy_eq_self hends,
    Text.split_join hne fun field hfield hc => (h field hfield _ hc).2.1 rfl, htrim]

theorem ascii_of_fields? {payload : List UInt8} {fields : List (List Char)}
    (h : fields? payload = some fields) {field : List Char} (hfield : field ∈ fields) :
    Ascii field := by
  obtain ⟨cs, hcs, rfl⟩ := Option.map_eq_some_iff.mp h
  obtain ⟨piece, hpiece, rfl⟩ := List.mem_map.mp hfield
  intro c hc
  exact ascii_of_ascii? hcs c
    (Text.mem_of_mem_trimEndBy (Text.mem_of_mem_split hpiece (Text.mem_of_mem_trimBy hc)))

end LinkTuner.Wire

import LinkTuner.Proofs.Decimal.Literals

/-!
# Doubles as text

A double is written with the fewest digits that read back. Main statements: in every style the text
of a finite double is a literal with its bits; in messages, where there are no exponents, reading the
text of a double gives the double, whether it is a number, a zero with either sign, an infinity or
undefined.
-/

namespace LinkTuner.Decimal

open Double (Digits)

/-! ## Bits -/

/-- The bits that a sign and a magnitude are read off. -/
def Binary.Codes (bits : ℕ) : Binary → Prop
  | .notANumber => infinityBits < bits % signBit
  | .infinite negative => bits = signed negative infinityBits
  | .finite negative m e => bits = signed negative (codeOf m e) ∧ Digits m e ∧ e ≤ 971

theorem codes_ofBits {bits : ℕ} (h : bits < 2 * signBit) : (Binary.ofBits bits).Codes bits := by
  obtain ⟨magnitude, hmagnitude⟩ : ∃ magnitude, bits % signBit = magnitude := ⟨_, rfl⟩
  have hsigned : bits = signed (decide (signBit ≤ bits)) magnitude := by
    simp only [signed, decide_eq_true_eq, ← hmagnitude]
    split_ifs with hnegative
    · rw [Nat.mod_eq_sub_mod hnegative, Nat.mod_eq_of_lt (by omega)]
      omega
    · rw [Nat.mod_eq_of_lt (by omega)]
  simp only [Binary.ofBits, hmagnitude]
  split_ifs with hover hinfinite hscale
  · simpa [Binary.Codes, hmagnitude] using hover
  · simpa [Binary.Codes, hinfinite] using hsigned
  · simp only [infinityBits, hiddenBit] at hover hinfinite hscale ⊢
    refine ⟨?_, ⟨by omega, le_rfl, .inr rfl⟩, by norm_num⟩
    rw [show codeOf (magnitude % 0x10000000000000) (-1074) = magnitude by
      simp only [codeOf, hiddenBit]
      omega]
    exact hsigned
  · simp only [infinityBits, hiddenBit] at hover hinfinite hscale ⊢
    refine ⟨?_, ⟨by omega, by omega, .inl (by omega)⟩, by omega⟩
    rw [show codeOf (0x10000000000000 + magnitude % 0x10000000000000)
        ((magnitude / 0x10000000000000 : ℕ) - 1075) = magnitude by
      simp only [codeOf, hiddenBit]
      omega]
    exact hsigned

theorem bitsOf_lt (x : Float) : bitsOf x < 2 * signBit := x.toBits.toNat_lt

section

open Float.Model

variable {x : Float}

/-- The exponent of all that is not finite. -/
theorem unpackExponent_of_le (h : infinityBits ≤ bitsOf x % signBit) :
    @UnpackedFloat.unpackExponent .binary64 x.toBits.toBitVec = -1#11 := by
  have hlt := x.toBits.toNat_lt
  simp only [infinityBits, bitsOf, signBit] at h
  apply BitVec.eq_of_toNat_eq
  simp only [UnpackedFloat.unpackExponent, BitVec.toNat_cast, BitVec.extractLsb_toNat,
    UInt64.toNat_toBitVec, Nat.shiftRight_eq_div_pow]
  change x.toBits.toNat / 2 ^ 52 % 2 ^ 11 = 2047
  omega

/-- The bits of a finite double are below those of infinity, its sign apart. -/
theorem lt_infinityBits_of_isFinite (h : x.isFinite = true) :
    bitsOf x % signBit < infinityBits := by
  by_contra hge
  have hexponent := unpackExponent_of_le (not_lt.mp hge)
  have hinfinite : (UnpackedFloat.unpack .binary64 x.toBits.toBitVec).isFinite = false := by
    unfold UnpackedFloat.unpack
    simp only [hexponent]
    split_ifs <;> rfl
  exact absurd (h.symm.trans hinfinite) (by simp)

/-- There is one undefined double. -/
theorem bitsOf_eq_of_lt (h : infinityBits < bitsOf x % signBit) : bitsOf x = undefinedBits := by
  have hlt := x.toBits.toNat_lt
  have hexponent := unpackExponent_of_le h.le
  simp only [infinityBits, bitsOf, signBit] at h
  have hmantissa : @UnpackedFloat.unpackMantissa .binary64 x.toBits.toBitVec ≠ 0#52 := by
    intro hzero
    have hzero := congrArg BitVec.toNat hzero
    simp only [UnpackedFloat.unpackMantissa, BitVec.toNat_cast, BitVec.extractLsb_toNat,
      UInt64.toNat_toBitVec, Nat.shiftRight_zero] at hzero
    change x.toBits.toNat % 2 ^ 52 = 0 at hzero
    omega
  exact congrArg BitVec.toNat (x.toModel.valid.eq_packedNaN hexponent hmantissa)

end

theorem ofBits_bitsOf (x : Float) : ofBits (bitsOf x) = x := by
  rw [ofBits, bitsOf, UInt64.ofNat_toNat, Float.ofBits_toBits]

/-! ## Finite doubles in every style -/

/-- The text of a finite double is a literal with its bits. -/
theorem exists_literal_textIn {style : Style} (hstyle : style.Legible) {x : Float}
    (hx : x.isFinite = true) :
    ∃ (l : Literal) (tail : List Char),
      (textIn style x).toList = withSign l.negative (l.mantissa ++ tail) ∧ l.Proper ∧
        ExponentText l.exponent tail ∧ l.bits = bitsOf x ∧
        (style.positional = none → tail = [] ∧ (style.wholeMark = ".0" → l.fraction ≠ [])) := by
  have hlt := lt_infinityBits_of_isFinite hx
  have hcodes := codes_ofBits (bitsOf_lt x)
  rw [textIn, String.toList_ofList, textOfBits]
  cases hbinary : Binary.ofBits (bitsOf x) with
  | notANumber =>
      rw [hbinary] at hcodes
      exact absurd hcodes hlt.not_gt
  | infinite negative =>
      rw [hbinary] at hcodes
      have hbits : bitsOf x = signed negative infinityBits := hcodes
      rw [hbits] at hlt
      cases negative with
      | true => exact absurd hlt (by decide)
      | false => exact absurd hlt (by decide)
  | finite negative m e =>
      rw [hbinary] at hcodes
      obtain ⟨hbits, hdigits, he⟩ := hcodes
      obtain ⟨l, tail, htext, hproper, htail, rfl, hlbits, hplain⟩ :=
        exists_literal_magnitudeText hstyle negative hdigits he
      exact ⟨l, tail, congrArg (withSign _) htext, hproper, htail, hlbits.trans hbits.symm, hplain⟩

/-! ## Reading what was written -/

/-- A digit or a point. -/
def NumeralChar (c : Char) : Prop := isDigit c = true ∨ c = '.'

instance (c : Char) : Decidable (NumeralChar c) := inferInstanceAs (Decidable (_ ∨ _))

theorem numeralChar_of_mem_mantissa {l : Literal} (h : l.Proper) {c : Char}
    (hc : c ∈ l.mantissa) : NumeralChar c := by
  rw [Literal.mantissa, List.mem_append] at hc
  obtain hc | hc := hc
  · exact .inl (h.whole c hc)
  · split_ifs at hc
    · cases hc
    · obtain rfl | hc := List.mem_cons.mp hc
      · exact .inr rfl
      · exact .inl (h.fraction c hc)

/-- In messages a magnitude is a literal of digits and points. -/
theorem exists_literal_message (negative : Bool) {m : ℕ} {e : ℤ} (hdigits : Digits m e)
    (he : e ≤ 971) :
    ∃ l : Literal, magnitudeText .message m e = l.mantissa ∧ l.Proper ∧
      literal? negative l.mantissa = some l ∧ l.bits = signed negative (codeOf m e) := by
  obtain ⟨l, tail, htext, hproper, htail, rfl, hbits, hplain⟩ :=
    exists_literal_magnitudeText Style.legible_message negative hdigits he
  obtain rfl : tail = [] := (hplain rfl).1
  have hread := literal?_mantissa_append hproper htail
  rw [List.append_nil] at htext hread
  exact ⟨l, htext, hproper, hread, hbits⟩

theorem toLower_of_numeralChar {c : Char} (h : NumeralChar c) : c.toLower = c := by
  obtain h | rfl := h
  · rw [isDigit_iff] at h
    rw [Char.toLower, dif_neg]
    rintro ⟨hupper, -⟩
    have hupper : 65 ≤ c.toNat := UInt32.le_iff_toNat_le.mp hupper
    omega
  · rfl

theorem takeSign_withSign (negative : Bool) {c : Char} {cs : List Char} (hminus : c ≠ '-')
    (hplus : c ≠ '+') : takeSign (withSign negative (c :: cs)) = (negative, c :: cs) := by
  cases negative with
  | true => rfl
  | false =>
      simp only [withSign, Bool.false_eq_true, if_false]
      unfold takeSign
      split
      · exact absurd (List.cons.inj ‹_›).1 hminus
      · exact absurd (List.cons.inj ‹_›).1 hplus
      · rfl

/-- What consists of digits and points is a literal or nothing, not a word. -/
theorem bits?_withSign (negative : Bool) {cs : List Char} (hne : cs ≠ [])
    (h : ∀ c ∈ cs, NumeralChar c) :
    bits? (withSign negative cs) = (literal? negative cs).map Literal.bits := by
  obtain ⟨c, cs, rfl⟩ := List.exists_cons_of_ne_nil hne
  have hc : NumeralChar c := h c List.mem_cons_self
  have hother (d : Char) (hd : ¬NumeralChar d) : c ≠ d := fun heq => hd (heq ▸ hc)
  have hword (d : Char) (ds : List Char) (hd : ¬NumeralChar d) :
      String.ofList (lower (c :: cs)) ≠ String.ofList (d :: ds) := by
    intro heq
    have heq := String.ofList_injective heq
    rw [lower, List.map_cons, List.cons.injEq, toLower_of_numeralChar hc] at heq
    exact hother d hd heq.1
  simp only [bits?, takeSign_withSign negative (hother '-' (by decide)) (hother '+' (by decide))]
  rw [if_neg, if_neg]
  · exact hword 'n' ['a', 'n'] (by decide)
  · rintro (heq | heq)
    · exact hword 'i' ['n', 'f'] (by decide) heq
    · exact hword 'i' ['n', 'f', 'i', 'n', 'i', 't', 'y'] (by decide) heq

theorem bits?_textOfBits {bits : ℕ} (hlt : bits < 2 * signBit)
    (hundefined : infinityBits < bits % signBit → bits = undefinedBits) :
    bits? (textOfBits .message bits) = some bits := by
  have hcodes := codes_ofBits hlt
  rw [textOfBits]
  cases hbinary : Binary.ofBits bits with
  | notANumber =>
      rw [hbinary] at hcodes
      rw [hundefined hcodes]
      rfl
  | infinite negative =>
      rw [hbinary] at hcodes
      rw [show bits = signed negative infinityBits from hcodes]
      cases negative with
      | true => rfl
      | false => rfl
  | finite negative m e =>
      rw [hbinary] at hcodes
      obtain ⟨hbits, hdigits, he⟩ := hcodes
      obtain ⟨l, htext, hproper, hl, hlbits⟩ := exists_literal_message negative hdigits he
      have hne : l.mantissa ≠ [] := by simp [Literal.mantissa, hproper.whole_ne_nil]
      dsimp only
      rw [htext, bits?_withSign negative hne fun _ => numeralChar_of_mem_mantissa hproper, hl,
        Option.map_some, hlbits, hbits]

/-- Reading the text of a double gives the double. -/
theorem float?_text (x : Float) : float? (text x).toList = some x := by
  rw [text, textIn, String.toList_ofList, float?, bits?_textOfBits (bitsOf_lt x) bitsOf_eq_of_lt,
    Option.map_some, ofBits_bitsOf]

/-- The characters of numbers in messages. -/
theorem mem_text {x : Float} {c : Char} (h : c ∈ (text x).toList) :
    NumeralChar c ∨ c ∈ ['-', 'i', 'n', 'f', 'N', 'a'] := by
  have hsign (negative : Bool) (cs : List Char) (hc : c ∈ withSign negative cs) :
      c = '-' ∨ c ∈ cs := by
    cases negative with
    | true => exact List.mem_cons.mp hc
    | false => exact .inr hc
  have hcodes := codes_ofBits (bitsOf_lt x)
  rw [text, textIn, String.toList_ofList, textOfBits] at h
  cases hbinary : Binary.ofBits (bitsOf x) with
  | notANumber =>
      rw [hbinary] at h
      have hword : Style.message.notANumber.toList ⊆ ['-', 'i', 'n', 'f', 'N', 'a'] := by
        decide +kernel
      exact .inr (hword h)
  | infinite negative =>
      rw [hbinary] at h
      have hword : Style.message.infinity.toList ⊆ ['-', 'i', 'n', 'f', 'N', 'a'] := by
        decide +kernel
      obtain rfl | hc := hsign negative _ h
      · exact .inr (by decide)
      · exact .inr (hword hc)
  | finite negative m e =>
      rw [hbinary] at h hcodes
      obtain ⟨l, htext, hproper, -, -⟩ := exists_literal_message negative hcodes.2.1 hcodes.2.2
      obtain rfl | hc := hsign negative _ h
      · exact .inr (by decide)
      · exact .inl (numeralChar_of_mem_mantissa hproper (htext ▸ hc))

end LinkTuner.Decimal

import LinkTuner.Decimal.Format
import LinkTuner.Proofs.Decimal.Shortest

/-!
# Written numbers and the literals they are

Every style writes the magnitude of a double as the shortest digits with a point among them or none,
and some styles write an exponent after them. No other digit follows a zero in front. Main
statement: such a text is a literal that has the bits of the double.
-/

namespace LinkTuner.Decimal

open Double (Digits)
open LinkTuner.Decimal.Interval

/-! ## Numbers that literals stand for -/

section

variable {n m : ℕ} {e : ℤ} {ds : List Char}

/-- Powers in the range of doubles are raised. -/
theorem nearestScaled_eq (h : natural? ds = some n) (hn : 0 < n)
    (hlow : (10 : ℚ) ^ (-400 : ℤ) ≤ n * 10 ^ e) (hhigh : n * 10 ^ e < (10 : ℚ) ^ (400 : ℤ)) :
    nearestScaled ds e = nearest (n * tenTo e.toNat) (tenTo (-e).toNat) := by
  have hten : (1 : ℚ) < 10 := by norm_num
  have hpos : (0 : ℚ) < 10 ^ e := zpow_pos (by norm_num) _
  obtain ⟨hread, hleast, hmost⟩ := natural?_significant h hn
  have hne : 0 < (significant ds).length :=
    List.length_pos_of_ne_nil (natural?_eq_some_iff.mp hread).1
  have hfirst : ¬400 < e + ((significant ds).length : ℤ) := by
    intro hlarge
    have hle : (10 : ℚ) ^ (((significant ds).length : ℤ) - 1) ≤ n := by
      rw [show ((significant ds).length : ℤ) - 1 = (((significant ds).length - 1 : ℕ) : ℤ) by omega,
        zpow_natCast]
      exact_mod_cast hleast
    have hpow : (10 : ℚ) ^ (400 : ℤ) ≤ 10 ^ (((significant ds).length : ℤ) - 1) * 10 ^ e := by
      rw [← zpow_add₀ (by norm_num)]
      exact zpow_le_zpow_right₀ hten.le (by omega)
    exact absurd (hpow.trans (mul_le_mul_of_nonneg_right hle hpos.le)) (not_le.mpr hhigh)
  have hlast : ¬e + ((significant ds).length : ℤ) < -400 := by
    intro hsmall
    have hlt : (n : ℚ) < 10 ^ ((significant ds).length : ℤ) := by
      rw [zpow_natCast]
      exact_mod_cast hmost
    have hpow : (10 : ℚ) ^ ((significant ds).length : ℤ) * 10 ^ e ≤ 10 ^ (-400 : ℤ) := by
      rw [← zpow_add₀ (by norm_num)]
      exact zpow_le_zpow_right₀ hten.le (by omega)
    exact absurd hlow (not_le.mpr ((mul_lt_mul_of_pos_right hlt hpos).trans_le hpow))
  simp only [nearestScaled, hread, if_neg hfirst, if_neg hlast]

/-- The number that a literal stands for, how large it is apart. -/
def Literal.Stands (l : Literal) (v : ℚ) : Prop :=
  ∃ n, natural? (l.whole ++ l.fraction) = some n ∧ v = n * 10 ^ (l.exponent - l.fraction.length)

theorem codeOf_lt (hdigits : Digits m e) (he : e ≤ 971) : codeOf m e < infinityBits := by
  obtain ⟨hm, -, -⟩ := hdigits
  simp only [codeOf, hiddenBit, infinityBits]
  omega

/-- Half the least double is above the powers that count as zero. -/
theorem ten_zpow_le_least : (10 : ℚ) ^ (-400 : ℤ) ≤ 1 / 2 * 2 ^ (-1074 : ℤ) := by
  have hpow : (2 : ℚ) ^ 1075 ≤ 10 ^ 400 := by
    have h : (2 : ℕ) ^ 1075 ≤ 10 ^ 400 := by decide +kernel
    exact_mod_cast h
  calc (10 : ℚ) ^ (-400 : ℤ) = (10 ^ 400)⁻¹ := zpow_neg _ _
    _ ≤ (2 ^ 1075)⁻¹ := inv_anti₀ (by positivity) hpow
    _ = 1 / 2 * (2 ^ 1074)⁻¹ := by rw [pow_succ', mul_inv, one_div]
    _ = 1 / 2 * 2 ^ (-1074 : ℤ) := by rw [zpow_neg]; rfl

/-- The greatest doubles are below the powers that count as infinity. -/
theorem greatest_lt_ten_zpow : (2 : ℚ) ^ 53 * 2 ^ (971 : ℤ) < 10 ^ (400 : ℤ) := by
  have h : (2 : ℕ) ^ 53 * 2 ^ 971 < 10 ^ 400 := by decide +kernel
  exact_mod_cast h

/-- What reads back as a double is not far outside the range of doubles. -/
theorem bounds_of_contains (hm : 0 < m) (hdigits : Digits m e) (he : e ≤ 971) {v : ℚ}
    (h : (around m e).Contains v) :
    (10 : ℚ) ^ (-400 : ℤ) ≤ v ∧ v < (10 : ℚ) ^ (400 : ℤ) := by
  have hpos : (0 : ℚ) < 2 ^ e := zpow_pos two_pos _
  obtain ⟨hlow, hhigh⟩ := h.le
  rw [low_around hm] at hlow
  rw [high_around] at hhigh
  have hgap := gapBelow_le m e
  have hone : (1 : ℚ) ≤ m := by exact_mod_cast hm
  have hm' : (m : ℚ) + 1 ≤ 2 ^ 53 := by exact_mod_cast hdigits.1
  constructor
  · calc (10 : ℚ) ^ (-400 : ℤ) ≤ 1 / 2 * 2 ^ (-1074 : ℤ) := ten_zpow_le_least
      _ ≤ (m - gapBelow m e) * 2 ^ e := by
          refine mul_le_mul (by linarith) ?_ (by positivity) (by linarith)
          exact zpow_le_zpow_right₀ one_le_two hdigits.2.1
      _ ≤ v := hlow
  · calc v ≤ (m + 1 / 2) * 2 ^ e := hhigh
      _ ≤ 2 ^ 53 * 2 ^ (971 : ℤ) := by
          refine mul_le_mul (by linarith) ?_ hpos.le (by norm_num)
          exact zpow_le_zpow_right₀ one_le_two he
      _ < (10 : ℚ) ^ (400 : ℤ) := greatest_lt_ten_zpow

/-- A literal that stands for a number in the interval around a double has its bits. -/
theorem Literal.bits_eq {l : Literal} {v : ℚ} (hl : l.Stands v) (hm : 0 < m)
    (hdigits : Digits m e) (he : e ≤ 971) (h : (around m e).Contains v) :
    l.bits = signed l.negative (codeOf m e) := by
  obtain ⟨n, hread, rfl⟩ := hl
  obtain ⟨hlow, hhigh⟩ := bounds_of_contains hm hdigits he h
  have hn : 0 < n := by
    rcases Nat.eq_zero_or_pos n with rfl | hpos
    · rw [Nat.cast_zero, zero_mul] at hlow
      exact absurd hlow (not_le.mpr (zpow_pos (by norm_num) _))
    · exact hpos
  have hquotient (t : ℤ) : (n : ℚ) * 10 ^ t = (n * tenTo t.toNat : ℕ) / (tenTo (-t).toNat : ℕ) := by
    rw [zpow_eq_toNat_div (by norm_num), tenTo_eq, tenTo_eq]
    push_cast
    ring
  rw [hquotient] at h
  rw [Literal.bits, nearestScaled_eq hread hn hlow hhigh,
    nearest_of_contains (Nat.mul_pos hn (tenTo_pos _)) (tenTo_pos _) hm hdigits h,
    Nat.min_eq_left (codeOf_lt hdigits he).le]

end

/-! ## The text of a literal -/

/-- A literal as grammars without superfluous zeros admit it: digits in front of the point, where no
other digit follows a zero. -/
structure Literal.Proper (l : Literal) : Prop where
  whole_ne_nil : l.whole ≠ []
  whole : ∀ c ∈ l.whole, isDigit c = true
  fraction : ∀ c ∈ l.fraction, isDigit c = true
  leading : l.whole.head? = some '0' → l.whole = ['0']

/-- The digits of a literal with the point among them, which is left out at the end. -/
def Literal.mantissa (l : Literal) : List Char :=
  l.whole ++ if l.fraction = [] then [] else '.' :: l.fraction

/-- The written forms of a power of ten. -/
inductive ExponentText : ℤ → List Char → Prop where
  | none : ExponentText 0 []
  | negative (n : ℕ) : ExponentText (-n) ('e' :: '-' :: digits n)
  | positive (n : ℕ) : ExponentText n ('e' :: '+' :: digits n)

section

variable {l : Literal} {tail : List Char}

theorem exponentPart?_tail {e : ℤ} (h : ExponentText e tail) : exponentPart? tail = some e := by
  cases h with
  | none => rfl
  | negative n => simp [exponentPart?, takeSign]
  | positive n => simp [exponentPart?, takeSign]

/-- What follows the digits of a literal is no digit and no point. -/
theorem not_numeral_of_tail {e : ℤ} (h : ExponentText e tail) {c : Char} {cs : List Char}
    (htail : tail = c :: cs) : c = 'e' := by
  cases h <;> cases htail <;> rfl

theorem takeWhile_isDigit {ds cs : List Char} (hds : ∀ c ∈ ds, isDigit c = true)
    (hcs : ∀ c rest, cs = c :: rest → isDigit c = false) :
    (ds ++ cs).takeWhile isDigit = ds ∧ (ds ++ cs).dropWhile isDigit = cs := by
  rw [List.takeWhile_append_of_pos hds, List.dropWhile_append_of_pos hds]
  cases cs with
  | nil => simp
  | cons c rest => simp [hcs c rest rfl]

theorem literal?_mantissa_append (h : l.Proper) (htail : ExponentText l.exponent tail) :
    literal? l.negative (l.mantissa ++ tail) = some l := by
  obtain ⟨negative, whole, fraction, exponent⟩ := l
  obtain ⟨hne, hwhole, hfraction, -⟩ := h
  dsimp only at hne hwhole hfraction htail
  have hdigit (c : Char) (rest : List Char) (hc : tail = c :: rest) : isDigit c = false := by
    rw [not_numeral_of_tail htail hc]
    rfl
  rcases eq_or_ne fraction [] with rfl | hpoint
  · obtain ⟨htake, hdrop⟩ := takeWhile_isDigit hwhole hdigit
    have hmantissa : Literal.mantissa ⟨negative, whole, [], exponent⟩ = whole := by
      simp [Literal.mantissa]
    simp only [hmantissa, literal?, htake, hdrop]
    cases htail with
    | none => simp [hne, exponentPart?]
    | negative n => simp [hne, exponentPart?, takeSign]
    | positive n => simp [hne, exponentPart?, takeSign]
  · have hpointed (c : Char) (rest : List Char) (hc : '.' :: (fraction ++ tail) = c :: rest) :
        isDigit c = false := by
      cases hc
      rfl
    obtain ⟨htake, hdrop⟩ := takeWhile_isDigit hwhole hpointed
    obtain ⟨htake', hdrop'⟩ := takeWhile_isDigit hfraction hdigit
    have hmantissa : Literal.mantissa ⟨negative, whole, fraction, exponent⟩ ++ tail =
        whole ++ '.' :: (fraction ++ tail) := by
      simp [Literal.mantissa, hpoint]
    simp [hmantissa, literal?, htake, hdrop, hne, htake', hdrop', exponentPart?_tail htail]

end

/-! ## Digits of a number -/

theorem head?_digits_ne {n : ℕ} (hn : 0 < n) : (digits n).head? ≠ some '0' := by
  induction n using digits.induct with
  | case1 n hlt =>
      rw [digits, if_pos hlt]
      interval_cases n <;> decide
  | case2 n hge ih =>
      rw [digits, if_neg hge]
      cases hds : digits (n / 10) with
      | nil => exact absurd hds (digits_ne_nil _)
      | cons d ds =>
          rw [hds] at ih
          exact ih (by omega)

/-- A whole number as a literal. -/
def Literal.integer (negative : Bool) (n : ℕ) : Literal := ⟨negative, digits n, [], 0⟩

theorem Literal.mantissa_integer (negative : Bool) (n : ℕ) :
    (Literal.integer negative n).mantissa = digits n := by
  simp [Literal.mantissa, Literal.integer]

theorem Literal.proper_integer (negative : Bool) (n : ℕ) : (Literal.integer negative n).Proper where
  whole_ne_nil := digits_ne_nil n
  whole _ := isDigit_of_mem_digits
  fraction _ h := nomatch h
  leading h := by
    rcases Nat.eq_zero_or_pos n with rfl | hn
    · simp [Literal.integer, digits, digitChar]
    · exact absurd h (head?_digits_ne hn)

/-- What the digits of a number begin with can stand in front of a point. -/
theorem leading_append {n : ℕ} (hn : 0 < n) {ws cs : List Char} (hws : ws ≠ [])
    (h : digits n = ws ++ cs) (zs : List Char) :
    (ws ++ zs).head? = some '0' → ws ++ zs = ['0'] := by
  intro hhead
  have hne := head?_digits_ne hn
  rw [h] at hne
  cases ws with
  | nil => exact absurd rfl hws
  | cons w ws => exact absurd hhead hne

/-! ## The text of a magnitude -/

/-- Whether the numbers of a style are literals: whole numbers have a zero after the point or no
point, and each exponent has a sign. -/
structure Style.Legible (style : Style) : Prop where
  wholeMark : style.wholeMark = "" ∨ style.wholeMark = ".0"
  sign : style.positional = none ∨ style.plusSign = "+"

theorem Style.legible_message : Style.message.Legible := ⟨.inl rfl, .inl rfl⟩

theorem Style.legible_json : Style.json.Legible := ⟨.inr rfl, .inr rfl⟩

theorem Style.legible_settings : Style.settings.Legible := ⟨.inr rfl, .inl rfl⟩

section

variable {style : Style} (hstyle : style.Legible) (negative : Bool) {n : ℕ} (hn : 0 < n)

include hstyle hn

/-- A number without an exponent is a literal that stands for it. -/
theorem exists_literal_positionalText (t : ℤ) :
    ∃ l : Literal, positionalText style (digits n) t = l.mantissa ∧ l.Proper ∧
      l.negative = negative ∧ l.exponent = 0 ∧ l.Stands (n * 10 ^ t) ∧
      (style.wholeMark = ".0" → l.fraction ≠ []) := by
  have hdigit (c : Char) (h : c ∈ digits n) : isDigit c = true := isDigit_of_mem_digits h
  have hzeros (k : ℕ) (c : Char) (h : c ∈ List.replicate k '0') : isDigit c = true :=
    isDigit_of_mem_zeros h
  have hread := natural?_digits n
  simp only [positionalText]
  split_ifs with hwhole hinside
  · have hdigits (c : Char) (h : c ∈ digits n ++ List.replicate t.toNat '0') : isDigit c = true :=
      (List.mem_append.mp h).elim (hdigit c) (hzeros _ c)
    have hleading := leading_append hn (digits_ne_nil n) (List.append_nil _).symm
      (List.replicate t.toNat '0')
    obtain ⟨k, rfl⟩ := Int.eq_ofNat_of_zero_le hwhole
    have hvalue : ((n * 10 ^ k : ℕ) : ℚ) = n * 10 ^ (k : ℤ) := by simp
    obtain hmark | hmark := hstyle.wholeMark
    · refine ⟨⟨negative, digits n ++ List.replicate k '0', [], 0⟩, ?_,
        ⟨by simp [digits_ne_nil], hdigits, by simp, hleading⟩, rfl, rfl, ?_, ?_⟩
      · simp [Literal.mantissa, hmark]
      · refine ⟨n * 10 ^ k, ?_, by simp⟩
        rw [List.append_nil, natural?_append_zeros hread]
      · rw [hmark]
        simp
    · refine ⟨⟨negative, digits n ++ List.replicate k '0', ['0'], 0⟩, ?_,
        ⟨by simp [digits_ne_nil], hdigits, by simpa using hzeros 1 '0', hleading⟩, rfl, rfl, ?_, ?_⟩
      · simp [Literal.mantissa, hmark]
      · refine ⟨n * 10 ^ k * 10 ^ 1, natural?_append_zeros (natural?_append_zeros hread k) 1, ?_⟩
        push_cast
        rw [mul_assoc, mul_assoc]
        simp
      · simp
  · obtain ⟨places, hplaces⟩ : ∃ places, (-t).toNat = places := ⟨_, rfl⟩
    rw [hplaces] at hinside ⊢
    have hne : (digits n).take ((digits n).length - places) ≠ [] := by
      intro hnil
      have := congrArg List.length hnil
      rw [List.length_take, List.length_nil] at this
      omega
    have hne' : (digits n).drop ((digits n).length - places) ≠ [] := by
      intro hnil
      have := congrArg List.length hnil
      rw [List.length_drop, List.length_nil] at this
      omega
    refine ⟨⟨negative, (digits n).take ((digits n).length - places),
      (digits n).drop ((digits n).length - places), 0⟩, ?_,
      ⟨hne, fun c hc => hdigit c (List.mem_of_mem_take hc),
        fun c hc => hdigit c (List.mem_of_mem_drop hc), ?_⟩, rfl, rfl, ⟨n, ?_, ?_⟩, fun _ => hne'⟩
    · simp [Literal.mantissa, hne']
    · simpa using leading_append hn hne (List.take_append_drop _ _).symm []
    · rw [List.take_append_drop, hread]
    · rw [List.length_drop]
      congr 2
      dsimp only
      omega
  · obtain ⟨places, hplaces⟩ : ∃ places, (-t).toNat = places := ⟨_, rfl⟩
    rw [hplaces] at hinside ⊢
    have hne : List.replicate (places - (digits n).length) '0' ++ digits n ≠ [] := by
      simp [digits_ne_nil]
    refine ⟨⟨negative, ['0'], List.replicate (places - (digits n).length) '0' ++ digits n, 0⟩, ?_,
      ⟨by simp, by simpa using hzeros 1 '0', ?_, fun _ => rfl⟩, rfl, rfl, ⟨n, ?_, ?_⟩,
      fun _ => hne⟩
    · simp [Literal.mantissa, digits_ne_nil]
    · rintro c hc
      exact (List.mem_append.mp hc).elim (hzeros _ c) (hdigit c)
    · exact natural?_zeros_append (natural?_zeros_append hread _) 1
    · rw [List.length_append, List.length_replicate]
      congr 2
      dsimp only
      omega

omit hstyle hn in
theorem exponentText_eq (hsign : style.plusSign = "+") (e : ℤ) :
    ExponentText e (exponentText style e) := by
  rw [exponentText, hsign]
  split_ifs with hneg
  · have h := ExponentText.negative e.natAbs
    rwa [show -(e.natAbs : ℤ) = e by omega] at h
  · have h := ExponentText.positive e.natAbs
    rwa [show (e.natAbs : ℤ) = e by omega] at h

omit hstyle in
/-- A number with one digit in front of the point and an exponent stands for the same. -/
theorem exists_literal_exponentialText (hsign : style.plusSign = "+") (t : ℤ) :
    ∃ (l : Literal) (tail : List Char), exponentialText style (digits n) t = l.mantissa ++ tail ∧
      l.Proper ∧ ExponentText l.exponent tail ∧ l.negative = negative ∧
      l.Stands (n * 10 ^ t) := by
  have hdigit (c : Char) (h : c ∈ digits n) : isDigit c = true := isDigit_of_mem_digits h
  have hread := natural?_digits n
  have hhead := head?_digits_ne hn
  cases hds : digits n with
  | nil => exact absurd hds (digits_ne_nil n)
  | cons d ds =>
      rw [hds] at hdigit hread hhead
      obtain ⟨hd, hrest⟩ := List.forall_mem_cons.mp hdigit
      refine ⟨⟨negative, [d], ds, t + ds.length⟩, exponentText style (t + ds.length), ?_,
        ⟨List.cons_ne_nil _ _, by simpa using hd, hrest, fun h => absurd h hhead⟩,
        exponentText_eq hsign _, rfl, n, hread, ?_⟩
      · have hlength : t + (((d :: ds).length : ℤ) - 1) = t + ds.length := by simp
        simp only [exponentialText, hlength, Literal.mantissa]
        cases ds with
        | nil => rfl
        | cons c cs => rfl
      · simp

end

/-- A magnitude is written as a literal with its bits, and without an exponent where the style has
none. -/
theorem exists_literal_magnitudeText {style : Style} (hstyle : style.Legible) (negative : Bool)
    {m : ℕ} {e : ℤ} (hdigits : Digits m e) (he : e ≤ 971) :
    ∃ (l : Literal) (tail : List Char), magnitudeText style m e = l.mantissa ++ tail ∧ l.Proper ∧
      ExponentText l.exponent tail ∧ l.negative = negative ∧
      l.bits = signed negative (codeOf m e) ∧
      (style.positional = none → tail = [] ∧ (style.wholeMark = ".0" → l.fraction ≠ [])) := by
  rcases Nat.eq_zero_or_pos m with rfl | hm
  · obtain rfl : e = -1074 := hdigits.2.2.resolve_left (by norm_num)
    have hproper (fraction : List Char) (h : ∀ c ∈ fraction, isDigit c = true) :
        Literal.Proper ⟨negative, ['0'], fraction, 0⟩ :=
      ⟨List.cons_ne_nil '0' [], fun c hc => isDigit_of_mem_zeros (k := 1) hc, h, fun _ => rfl⟩
    obtain hmark | hmark := hstyle.wholeMark
    · exact ⟨⟨negative, ['0'], [], 0⟩, [], by simp [magnitudeText, Literal.mantissa, hmark],
        hproper [] (by simp), .none, rfl, rfl, by simp [hmark]⟩
    · exact ⟨⟨negative, ['0'], ['0'], 0⟩, [], by simp [magnitudeText, Literal.mantissa, hmark],
        hproper ['0'] fun c hc => isDigit_of_mem_zeros (k := 1) hc, .none, rfl, rfl, by simp⟩
  · obtain ⟨s, hs⟩ : ∃ s, shortest style.tie m e = s := ⟨_, rfl⟩
    have hcontains : (around m e).Contains (s.digits * 10 ^ s.exponent) :=
      hs ▸ contains_shortest style.tie hm hdigits
    have hn : 0 < s.digits := by
      rw [Nat.pos_iff_ne_zero]
      intro hzero
      have hlow := (bounds_of_contains hm hdigits he hcontains).1
      rw [hzero, Nat.cast_zero, zero_mul] at hlow
      exact absurd hlow (not_le.mpr (zpow_pos (by norm_num) _))
    have hbits {l : Literal} (hnegative : l.negative = negative)
        (hstands : l.Stands (s.digits * 10 ^ s.exponent)) :
        l.bits = signed negative (codeOf m e) :=
      hnegative ▸ l.bits_eq hstands hm hdigits he hcontains
    obtain ⟨l, htext, hproper, hnegative, hexponent, hstands, hfraction⟩ :=
      exists_literal_positionalText hstyle negative hn s.exponent
    rw [← List.append_nil l.mantissa] at htext
    have htail : ExponentText l.exponent [] := hexponent ▸ .none
    simp only [magnitudeText, if_neg hm.ne', hs]
    cases hpositional : style.positional with
    | none =>
        exact ⟨l, [], htext, hproper, htail, hnegative, hbits hnegative hstands,
          fun _ => ⟨rfl, hfraction⟩⟩
    | some range =>
        dsimp only
        split_ifs with hrange
        · exact ⟨l, [], htext, hproper, htail, hnegative, hbits hnegative hstands, nofun⟩
        · have hsign := hstyle.sign.resolve_left (by simp [hpositional])
          obtain ⟨l, tail, htext, hproper, htail, hnegative, hstands⟩ :=
            exists_literal_exponentialText negative hn hsign s.exponent
          exact ⟨l, tail, htext, hproper, htail, hnegative, hbits hnegative hstands, nofun⟩

end LinkTuner.Decimal

import LinkTuner.Proofs.Double.Value

/-!
# Calculating with doubles

The sum, difference, product and quotient of doubles that hold numbers is the rounded exact result,
and so is a whole number that becomes a double.
-/

namespace LinkTuner.Double

open Float.Model Float.Model.UnpackedFloat Float.Model.UnpackedFloat.ExtendedMantissa

theorem signed_apply (s : Sign) (m : ℕ) (x : ℚ) : (s.apply m : ℤ) * x = signed s (m * x) := by
  cases s <;> simp [Sign.apply, signed]

theorem rounds_self {u : UnpackedFloat} (h : Canonical u) (hfinite : u.isFinite = true) :
    Rounds u (value u) :=
  ⟨hfinite, h, nearest_self (isDouble_value h)⟩

theorem rounds_zero (s : Sign) : Rounds (.zero s) 0 :=
  ⟨rfl, trivial, nearest_self isDouble_zero⟩

theorem decreaseExponent_of_le (m : ℕ) {e t : ℤ} (h : t ≤ e) :
    ((decreaseExponent m e t).1 : ℚ) * 2 ^ t = m * 2 ^ e := by
  have hvalue := decreaseExponent_value m e t
  rwa [show (decreaseExponent m e t).2 = t by simp only [decreaseExponent]; omega] at hvalue

/-- Two numbers in the smaller of their units. -/
theorem signed_decreaseExponent (s : Sign) (m : ℕ) {e t : ℤ} (h : t ≤ e) :
    (s.apply (decreaseExponent m e t).1 : ℚ) * 2 ^ t = signed s (m * 2 ^ e) := by
  rw [signed_apply, decreaseExponent_of_le m h]

variable {u w : UnpackedFloat}

/-- A finite float is a zero or has digits. -/
theorem finite_cases (h : u.isFinite = true) :
    (∃ s, u = .zero s) ∨ ∃ s m e hm, u = .finite s m e hm := by
  cases u with
  | notANumber => cases h
  | infinity s => cases h
  | zero s => exact .inl ⟨s, rfl⟩
  | finite s m e hm => exact .inr ⟨s, m, e, hm, rfl⟩

theorem infinity_of_isInf (h : u.isInf = true) : ∃ s, u = .infinity s := by
  cases u with
  | infinity s => exact ⟨s, rfl⟩
  | notANumber => cases h
  | zero s => cases h
  | finite s m e hm => cases h

theorem rounds_add (hu : Canonical u) (hw : Canonical w) (hfu : u.isFinite = true)
    (hfw : w.isFinite = true) : Rounds (UnpackedFloat.add .binary64 u w) (value u + value w) := by
  obtain ⟨s, rfl⟩ | ⟨s, m, e, hm, rfl⟩ := finite_cases hfu
  · obtain ⟨s', rfl⟩ | ⟨s', m', e', hm', rfl⟩ := finite_cases hfw
    · simp only [UnpackedFloat.add, value, add_zero]
      split_ifs <;> exact rounds_zero _
    · simpa [UnpackedFloat.add, value] using rounds_self hw hfw
  · obtain ⟨s', rfl⟩ | ⟨s', m', e', hm', rfl⟩ := finite_cases hfw
    · simpa [UnpackedFloat.add, value] using rounds_self hu hfu
    · have hround := rounds_normalize (s.apply (decreaseExponent m e (min e e')).1 +
        s'.apply (decreaseExponent m' e' (min e e')).1) (min e e') .positive
      rwa [Int.cast_add, add_mul, signed_decreaseExponent s m (min_le_left e e'),
        signed_decreaseExponent s' m' (min_le_right e e')] at hround

theorem canonical_neg (h : Canonical u) : Canonical u.neg := by
  cases u <;> exact h

theorem isFinite_neg (u : UnpackedFloat) : u.neg.isFinite = u.isFinite := by
  cases u <;> rfl

theorem value_neg (u : UnpackedFloat) : value u.neg = -value u := by
  cases u with
  | finite s m e hm =>
      cases s with
      | negative => exact (neg_neg _).symm
      | positive => rfl
  | infinity s => exact neg_zero.symm
  | zero s => exact neg_zero.symm
  | notANumber => exact neg_zero.symm

theorem apply_neg (s : Sign) (m : ℕ) : (-s).apply m = -(s.apply m : ℤ) := by
  cases s with
  | negative => exact (neg_neg _).symm
  | positive => rfl

theorem sub_eq_add (u w : UnpackedFloat) :
    UnpackedFloat.sub .binary64 u w = UnpackedFloat.add .binary64 u w.neg := by
  cases u with
  | finite s m e hm =>
      cases w with
      | finite s' m' e' hm' =>
          simp only [UnpackedFloat.sub, UnpackedFloat.add, UnpackedFloat.neg, apply_neg,
            Int.sub_eq_add_neg]
      | _ => rfl
  | _ => cases w <;> rfl

theorem rounds_sub (hu : Canonical u) (hw : Canonical w) (hfu : u.isFinite = true)
    (hfw : w.isFinite = true) : Rounds (UnpackedFloat.sub .binary64 u w) (value u - value w) := by
  have h := rounds_add hu (canonical_neg hw) hfu ((isFinite_neg w).trans hfw)
  rwa [← sub_eq_add, value_neg, ← sub_eq_add_neg] at h

theorem signed_mul (s s' : Sign) (x y : ℚ) :
    signed (s * s') (x * y) = signed s x * signed s' y := by
  cases s <;> cases s'
  · exact (neg_mul_neg x y).symm
  · exact (neg_mul x y).symm
  · exact (mul_neg x y).symm
  · rfl

/-- One factor with all fifty-three digits is enough for the product to have them. -/
theorem add_le_unitOf_mul {m m' : ℕ} {e e' : ℤ} (h : Digits m e) (h' : Digits m' e') (hm : 0 < m)
    (hm' : 0 < m') : e + e' ≤ unitOf (m * m') (e + e') := by
  rw [unitOf_eq]
  have hlog (hle : 2 ^ 52 ≤ m * m') : 52 ≤ (m * m').log2 := (Nat.le_log2 (by positivity)).mpr hle
  rcases h.2.2 with hfull | hleast
  · have := hlog (hfull.trans (Nat.le_mul_of_pos_right m hm'))
    omega
  · rcases h'.2.2 with hfull' | hleast'
    · have := hlog (hfull'.trans (Nat.le_mul_of_pos_left m' hm))
      omega
    · omega

theorem rounds_mul (hu : Canonical u) (hw : Canonical w) (hfu : u.isFinite = true)
    (hfw : w.isFinite = true) : Rounds (UnpackedFloat.mul .binary64 u w) (value u * value w) := by
  obtain ⟨s, rfl⟩ | ⟨s, m, e, hm, rfl⟩ := finite_cases hfu
  · obtain ⟨s', rfl⟩ | ⟨s', m', e', hm', rfl⟩ := finite_cases hfw <;>
      simpa [UnpackedFloat.mul, value] using rounds_zero _
  · obtain ⟨s', rfl⟩ | ⟨s', m', e', hm', rfl⟩ := finite_cases hfw
    · simpa [UnpackedFloat.mul, value] using rounds_zero _
    · have hround := rounds_roundWithAccuracy (reads_natCast (m * m'))
        (add_le_unitOf_mul hu hw hm hm') (s * s')
      have hproduct : ((m * m' : ℕ) : ℚ) * 2 ^ (e + e') = m * 2 ^ e * (m' * 2 ^ e') := by
        rw [zpow_add₀ two_ne_zero]
        push_cast
        ring
      rwa [hproduct, signed_mul] at hround

theorem signed_div (s s' : Sign) (x y : ℚ) :
    signed (s / s') (x / y) = signed s x / signed s' y := by
  cases s <;> cases s'
  · exact (neg_div_neg_eq x y).symm
  · exact (neg_div y x).symm
  · exact (div_neg x).symm
  · rfl

/-- The remainder of a division, seen from its quotient. -/
theorem reads_accuracyOfFraction (q : ℕ) {r d : ℕ} (hr : r < d) :
    Reads (ofMantissaAndAccuracy q (accuracyOfFraction r d)) (q + r / d) := by
  have hd : (0 : ℚ) < d := by exact_mod_cast Nat.zero_lt_of_lt hr
  have hone : (r : ℚ) / d < 1 := (div_lt_one hd).mpr (by exact_mod_cast hr)
  unfold accuracyOfFraction
  split_ifs with hzero
  · simp [hzero, Reads, ofMantissaAndAccuracy, worth]
  · have hpos : (0 : ℚ) < r / d := div_pos (by exact_mod_cast Nat.pos_of_ne_zero hzero) hd
    rcases lt_trichotomy (2 * r) d with hlt | heq | hgt
    · have hhalf : (r : ℚ) / d < 1 / 2 := by
        rw [div_lt_div_iff₀ hd two_pos]
        exact_mod_cast (by omega : r * 2 < 1 * d)
      rw [compare_lt_iff_lt.mpr hlt]
      simp [Reads, ofMantissaAndAccuracy, worth]
      constructor <;> linarith
    · have hhalf : (r : ℚ) / d = 1 / 2 := by
        rw [div_eq_div_iff hd.ne' two_ne_zero]
        exact_mod_cast (by omega : r * 2 = 1 * d)
      rw [compare_eq_iff_eq.mpr heq]
      simp [Reads, ofMantissaAndAccuracy, worth, hhalf]
    · have hhalf : 1 / 2 < (r : ℚ) / d := by
        rw [div_lt_div_iff₀ two_pos hd]
        exact_mod_cast (by omega : 1 * d < r * 2)
      rw [compare_gt_iff_gt.mpr hgt]
      simp [Reads, ofMantissaAndAccuracy, worth]
      constructor <;> linarith

section

variable {m m' : ℕ}

/-- A dividend with enough digits gives a quotient with all fifty-three of them. -/
theorem le_log2_div (hm : 0 < m) (hm' : 0 < m') {k : ℕ} (hk : 53 + m'.log2 ≤ m.log2 + k) :
    52 ≤ ((m <<< k) / m').log2 := by
  have hdivisor : m' ≤ 2 ^ (m'.log2 + 1) := Nat.lt_log2_self.le
  have hquotient : 2 ^ 52 ≤ (m <<< k) / m' := by
    rw [Nat.le_div_iff_mul_le hm', Nat.shiftLeft_eq]
    calc 2 ^ 52 * m' ≤ 2 ^ 52 * 2 ^ (m'.log2 + 1) := Nat.mul_le_mul_left _ hdivisor
      _ = 2 ^ (53 + m'.log2) := by rw [← pow_add]; congr 1; omega
      _ ≤ 2 ^ (m.log2 + k) := Nat.pow_le_pow_right two_pos hk
      _ ≤ m * 2 ^ k := by
        rw [pow_add]
        exact Nat.mul_le_mul_right _ (Nat.log2_self_le hm.ne')
  exact (Nat.le_log2 (Nat.pos_iff_ne_zero.mp (Nat.lt_of_lt_of_le (by norm_num) hquotient))).mpr
    hquotient

/-- Quotient and remainder, in the unit that the dividend was brought to. -/
theorem quotient_add_rest (m : ℕ) (hm' : 0 < m') {e e' t : ℤ} {k : ℕ} (hk : e - e' = t + k) :
    ((((m <<< k) / m' : ℕ) : ℚ) + ((m <<< k) % m' : ℕ) / m') * 2 ^ t =
      m * 2 ^ e / (m' * 2 ^ e') := by
  have hdivisor : (m' : ℚ) ≠ 0 := by exact_mod_cast hm'.ne'
  have hsplit : (m : ℚ) * 2 ^ k = m' * ((m <<< k) / m' : ℕ) + ((m <<< k) % m' : ℕ) := by
    rw [← Nat.cast_mul, ← Nat.cast_add, Nat.div_add_mod, Nat.shiftLeft_eq]
    push_cast
    rfl
  have hquotient : (((m <<< k) / m' : ℕ) : ℚ) + ((m <<< k) % m' : ℕ) / m' = m * 2 ^ k / m' := by
    rw [hsplit]
    field_simp
  have hpower : (2 : ℚ) ^ e = 2 ^ t * 2 ^ k * 2 ^ e' := by
    rw [← two_zpow_add, ← hk, ← zpow_add₀ two_ne_zero, sub_add_cancel]
  rw [hquotient, hpower]
  field_simp

/-- The dividend is brought to a unit that gives the quotient fifty-three digits, if there is
one. -/
theorem rounds_divCore (e e' : ℤ) (hm : 0 < m) (hm' : 0 < m') (s : Sign) {q : ℕ} {t : ℤ}
    {acc : Accuracy} (h : divCore .binary64 m e m' e' = (q, t, acc)) :
    Rounds (roundWithAccuracy .binary64 s q t acc) (signed s (m * 2 ^ e / (m' * 2 ^ e'))) := by
  have hmantissa : Format.binary64.mantissaBits = 53 := rfl
  have hleast : Format.binary64.minExponent = -1074 := rfl
  simp only [divCore, totalExponent, Format.targetExponent, hmantissa, hleast, Prod.mk.injEq] at h
  obtain ⟨hq, ht, hacc⟩ := h
  rw [ht] at hq hacc
  obtain ⟨k, hk⟩ : ∃ k : ℕ, e - e' = t + k := ⟨(e - e' - t).toNat, by omega⟩
  rw [show (e - e' - t).toNat = k by omega] at hq hacc
  have hunit : t ≤ unitOf q t := by
    rw [unitOf_eq, ← hq]
    rcases le_or_gt t (-1074) with hle | hgt
    · omega
    · have := le_log2_div hm hm' (k := k) (by omega)
      omega
  have hround := rounds_roundWithAccuracy (reads_accuracyOfFraction q (Nat.mod_lt (m <<< k) hm'))
    hunit s
  have hexact := quotient_add_rest m hm' hk
  rw [hq] at hexact
  rwa [hacc, hexact] at hround

end

theorem rounds_div (hu : Canonical u) (hfu : u.isFinite = true) (hfw : w.isFinite = true)
    (hne : value w ≠ 0) : Rounds (UnpackedFloat.div .binary64 u w) (value u / value w) := by
  obtain ⟨s', rfl⟩ | ⟨s', m', e', hm', rfl⟩ := finite_cases hfw
  · exact absurd rfl hne
  · obtain ⟨s, rfl⟩ | ⟨s, m, e, hm, rfl⟩ := finite_cases hfu
    · simpa [UnpackedFloat.div, value] using rounds_zero _
    · have hround := rounds_divCore e e' hm hm' (s / s') rfl
      rwa [signed_div] at hround

/-! ## Doubles that hold numbers -/

variable {x y : Float} {a b : ℚ}

theorem Holds.add (hx : Holds x a) (hy : Holds y b) : Result (x + y) (a + b) := by
  have h := rounds_add (canonical_form x) (canonical_form y) hx.finite hy.finite
  rw [hx.value_eq, hy.value_eq] at h
  exact h.result rfl

theorem Holds.sub (hx : Holds x a) (hy : Holds y b) : Result (x - y) (a - b) := by
  have h := rounds_sub (canonical_form x) (canonical_form y) hx.finite hy.finite
  rw [hx.value_eq, hy.value_eq] at h
  exact h.result rfl

theorem Holds.mul (hx : Holds x a) (hy : Holds y b) : Result (x * y) (a * b) := by
  have h := rounds_mul (canonical_form x) (canonical_form y) hx.finite hy.finite
  rw [hx.value_eq, hy.value_eq] at h
  exact h.result rfl

theorem Holds.div (hx : Holds x a) (hy : Holds y b) (hb : b ≠ 0) : Result (x / y) (a / b) := by
  have h := rounds_div (canonical_form x) hx.finite hy.finite (hy.value_eq ▸ hb)
  rw [hx.value_eq, hy.value_eq] at h
  exact h.result rfl

/-- A number divided by an infinity is zero. -/
theorem Holds.div_of_isInf (hx : Holds x a) (hy : (form y).isInf = true) : Holds (x / y) 0 := by
  have hform : form (x / y) = UnpackedFloat.unpack .binary64
    (UnpackedFloat.pack .binary64 (UnpackedFloat.div .binary64 (form x) (form y))) := rfl
  obtain ⟨s', hy'⟩ := infinity_of_isInf hy
  obtain ⟨s, hzero⟩ : ∃ s, UnpackedFloat.div .binary64 (form x) (form y) = .zero s := by
    rw [hy']
    obtain ⟨s, hx'⟩ | ⟨s, m, e, hm, hx'⟩ := finite_cases hx.finite <;>
      exact ⟨s / s', by rw [hx']; rfl⟩
  rw [hzero, unpack_pack (show Canonical (.zero s) from trivial)] at hform
  exact ⟨hform ▸ rfl, hform ▸ rfl⟩

theorem Result.exists_holds {k : ℤ} (hk : k ≤ 1023) (h : Result x a) :
    ∃ r, Nearest a r ∧ (|r| ≤ 2 ^ k → Holds x r) := by
  obtain ⟨r, hr, hholds, -⟩ := h
  refine ⟨r, hr, fun hle => hholds (hle.trans_lt ?_)⟩
  exact zpow_lt_zpow_right₀ one_lt_two (by omega)

/-- A double moved by a share of its distance to another one. -/
theorem Holds.moved {s : Float} {share : ℚ} {k : ℤ} (hx : Holds x a) (hy : Holds y b)
    (hs : Holds s share) (hlow : -1021 ≤ k) (hhigh : k ≤ 1023) (ha : Within k a) (hb : Within k b)
    (hshare : Within 0 share) : ∃ r, Holds (x + s * (y - x)) r ∧ Within k r := by
  obtain ⟨d, hd, hdistance⟩ := (hy.sub hx).exists_holds hhigh
  have hd' : |d| ≤ 2 ^ k := hd.abs_le_of_abs_le (isDouble_zpow (by omega)) (ha.abs_sub_le hb)
  obtain ⟨t, ht, hpart⟩ := (hs.mul (hdistance hd')).exists_holds hhigh
  have ht' : |t| ≤ 2 ^ k := ht.abs_le_of_abs_le (isDouble_zpow (by omega)) (hshare.abs_mul_le hd')
  obtain ⟨r, hr, hsum⟩ := (hx.add (hpart ht')).exists_holds hhigh
  have hwithin : Within k r := Moved.within ⟨hd, ht, hr⟩ hshare hlow ha hx.isDouble hb
  exact ⟨r, hsum hwithin.abs_le, hwithin⟩

/-- A number that a double holds is not changed by rounding. -/
theorem Result.holds_of_isDouble (h : Result x a) (ha : IsDouble a) (hlt : |a| < 2 ^ (1024 : ℤ)) :
    Holds x a := by
  obtain ⟨r, hr, hholds, -⟩ := h
  rw [hr.eq_of_isDouble ha] at hholds
  exact hholds hlt

theorem holds_zero : Holds 0.0 0 := ⟨rfl, rfl⟩

theorem holds_one : Holds 1.0 1 := by
  refine ⟨rfl, ?_⟩
  have hform : form 1.0 = .finite .positive (2 ^ 52) (-52) (by norm_num) := rfl
  rw [hform]
  norm_num [value, signed]

/-! ## Whole numbers -/

theorem result_toFloat (n : UInt64) : Result n.toFloat n.toNat := by
  have h := rounds_normalize n.toNat 0 .positive
  rw [zpow_zero, mul_one] at h
  exact h.result rfl

theorem holds_toFloat {n : UInt64} (hn : n.toNat < 2 ^ 53) : Holds n.toFloat n.toNat := by
  have hlt : |(n.toNat : ℚ)| < 2 ^ (1024 : ℤ) := by
    have hlt' : (n.toNat : ℚ) < 2 ^ (53 : ℤ) := by exact_mod_cast hn
    rw [Nat.abs_cast]
    exact hlt'.trans (zpow_lt_zpow_right₀ one_lt_two (by norm_num))
  exact (result_toFloat n).holds_of_isDouble
    ⟨n.toNat, 0, by simpa using mod_cast hn.le, by norm_num, by simp⟩ hlt

theorem rounds_ofScientific {n : ℕ} (hn : 0 < n) :
    Rounds (UnpackedFloat.ofScientific .binary64 n 0) n := by
  have hshift : n <<< Format.binary64.mantissaBits * 10 ^ (0 : ℤ).toNat = n * 2 ^ 53 := by
    rw [Nat.shiftLeft_eq]
    exact Nat.mul_one _
  have hunit : (-53 + 0 : ℤ) ≤ unitOf (n * 2 ^ 53) (-53 + 0) := by
    have hlog : 53 ≤ (n * 2 ^ 53).log2 :=
      (Nat.le_log2 (by positivity)).mpr (Nat.le_mul_of_pos_left _ hn)
    rw [unitOf_eq]
    omega
  have h := rounds_roundWithAccuracy (reads_natCast (n * 2 ^ 53)) hunit .positive
  have hvalue : signed .positive (((n * 2 ^ 53 : ℕ) : ℚ) * 2 ^ (-53 + 0 : ℤ)) = n := by
    rw [signed]
    push_cast
    rw [mul_assoc]
    norm_num
  have hmul : UnpackedFloat.ofScientific .binary64 n 0 =
      roundWithAccuracy .binary64 .positive
        (n <<< Format.binary64.mantissaBits * 10 ^ (0 : ℤ).toNat) (-53 + 0) .exact := by
    have hpos : (0 : ℤ) ≤ 2 ^ Format.binary64.exponentBits := by positivity
    rw [UnpackedFloat.ofScientific, dif_neg hn.ne', if_neg (by decide), if_neg (by omega),
      if_pos le_rfl]
    rfl
  rw [hmul, hshift]
  exact hvalue ▸ h

theorem result_ofNat (n : ℕ) : Result (Float.ofNat n) n := by
  by_cases hn : n < 2 ^ 53
  · have hfast : Float.ofNat n = n.toUInt64.toFloat * Float.ofBits 0x3FF0000000000000 :=
      dif_pos (c := n < 2 ^ 53 ∧ 0 ≤ 22) ⟨hn, Nat.zero_le 22⟩
    have hexact : Holds n.toUInt64.toFloat n := by
      have hword : n.toUInt64.toNat = n := Nat.mod_eq_of_lt (hn.trans (by norm_num))
      simpa only [hword] using holds_toFloat (hword.trans_lt hn)
    rw [hfast, show Float.ofBits 0x3FF0000000000000 = 1.0 from rfl]
    simpa using hexact.mul holds_one
  · have hslow : Float.ofNat n = .ofModel (.ofScientific n 0) :=
      dif_neg (c := n < 2 ^ 53 ∧ 0 ≤ 22) fun h => hn h.1
    rw [hslow]
    exact (rounds_ofScientific (by omega)).result rfl

end LinkTuner.Double

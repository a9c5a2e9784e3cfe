import LinkTuner.Proofs.Double.Nearest

/-!
# Rounding to doubles

A result of arithmetic is a whole number of units with what is known of the rest: whether it is
nothing, or less than, exactly or more than half a unit. The unit is raised until the number has at
most fifty-three digits, and the rest decides about the last one. What comes out is the nearest
double of the exact result, how large it is apart.
-/

namespace LinkTuner.Double

open Float.Model Float.Model.UnpackedFloat Float.Model.UnpackedFloat.ExtendedMantissa

/-! ## The rest below the last digit -/

/-- What the first digit after the units is worth. -/
def worth (half : Bool) : ℚ := if half then 1 / 2 else 0

/-- A number of which the whole part and the first digit after it are known, and whether there is
anything after that. -/
def Reads (em : ExtendedMantissa) (x : ℚ) : Prop :=
  if em.stickyBit then
    em.mantissa + worth em.roundBit < x ∧ x < em.mantissa + worth em.roundBit + 1 / 2
  else x = em.mantissa + worth em.roundBit

variable {x : ℚ} {em : ExtendedMantissa}

theorem reads_natCast (m : ℕ) : Reads (ofMantissaAndAccuracy m .exact) m := by
  simp [Reads, ofMantissaAndAccuracy, worth]

theorem Reads.mantissa_le (h : Reads em x) : em.mantissa ≤ x := by
  unfold Reads worth at h
  split_ifs at h <;> linarith [h]

theorem Reads.lt (h : Reads em x) : x < em.mantissa + 1 := by
  unfold Reads worth at h
  split_ifs at h <;> linarith

theorem Reads.shiftRightOne (h : Reads em x) : Reads em.shiftRightOne (x / 2) := by
  have hdigit : ((em.mantissa / 2 : ℕ) : ℚ) + worth (em.mantissa % 2 != 0) = em.mantissa / 2 := by
    have hm := Nat.div_add_mod em.mantissa 2
    have hcast : (em.mantissa : ℚ) = 2 * (em.mantissa / 2 : ℕ) + (em.mantissa % 2 : ℕ) := by
      exact_mod_cast hm.symm
    rcases Nat.mod_two_eq_zero_or_one em.mantissa with hmod | hmod <;>
      rw [hmod] at hcast ⊢ <;> norm_num [worth] at hcast ⊢ <;> linarith
  simp only [Reads, ExtendedMantissa.shiftRightOne, hdigit]
  unfold Reads worth at h
  cases hhalf : em.roundBit <;> cases hrest : em.stickyBit <;> simp [hhalf, hrest] at h ⊢
  · rw [h]
  · constructor <;> linarith
  · constructor <;> linarith
  · constructor <;> linarith

theorem Reads.shiftRight (h : Reads em x) (n : ℕ) : Reads (em >>> n) (x / 2 ^ n) := by
  change Reads (n.repeat ExtendedMantissa.shiftRightOne em) (x / 2 ^ n)
  induction n with
  | zero => simpa [Nat.repeat] using h
  | succ n ih =>
      have hnext := ih.shiftRightOne
      rwa [div_div, ← pow_succ] at hnext

/-- The rest decides for the nearer whole number. -/
theorem Reads.abs_roundedMantissa_sub_le (h : Reads em x) : |em.roundedMantissa - x| ≤ 1 / 2 := by
  obtain ⟨m, half, rest⟩ := em
  have hparity : ((m % 2 : ℕ) : ℚ) = 0 ∨ ((m % 2 : ℕ) : ℚ) = 1 := by
    exact_mod_cast Nat.mod_two_eq_zero_or_one m
  rw [abs_le]
  cases half <;> cases rest <;>
    simp [Reads, worth, roundedMantissa, accuracy,
      Accuracy.roundToNearestEven, -Nat.cast_eq_zero] at h hparity ⊢
  case false.false => simp [h]
  case false.true => constructor <;> linarith
  case true.false => rcases hparity with hm | hm <;> simp only [hm] <;> constructor <;> linarith
  case true.true => constructor <;> linarith

theorem roundedMantissa_le (em : ExtendedMantissa) : em.roundedMantissa ≤ em.mantissa + 1 := by
  obtain ⟨m, half, rest⟩ := em
  cases half <;> cases rest <;>
    simp [roundedMantissa, accuracy, Accuracy.roundToNearestEven]
  omega

theorem le_roundedMantissa (em : ExtendedMantissa) : em.mantissa ≤ em.roundedMantissa := by
  obtain ⟨m, half, rest⟩ := em
  cases half <;> cases rest <;>
    simp [roundedMantissa, accuracy, Accuracy.roundToNearestEven]

/-! ## The unit of a result -/

/-- The exponent of the unit that fifty-three digits leave to a number. -/
def unitOf (m : ℕ) (e : ℤ) : ℤ := Format.binary64.targetExponent (totalExponent m e)

theorem unitOf_eq (m : ℕ) (e : ℤ) : unitOf m e = max (m.log2 + e - 52) (-1074) := by
  have hmantissa : Format.binary64.mantissaBits = 53 := rfl
  have hleast : Format.binary64.minExponent = -1074 := rfl
  rw [unitOf, Format.targetExponent, totalExponent, hmantissa, hleast]
  congr 1
  omega

theorem shiftToTargetExponent_of_unitOf {m : ℕ} {e t : ℤ} {acc : Accuracy} (h : unitOf m e = t)
    (hle : e ≤ t) : shiftToTargetExponent .binary64 m e acc =
      (ofMantissaAndAccuracy m acc >>> (t - e).toNat, t) := by
  rw [shiftToTargetExponent, ← unitOf, h, shiftToExponent, Prod.mk.injEq]
  exact ⟨rfl, by omega⟩

/-- Digits that are few enough, in a unit that is as small as it can be. -/
def Digits (m : ℕ) (e : ℤ) : Prop := m < 2 ^ 53 ∧ -1074 ≤ e ∧ (2 ^ 52 ≤ m ∨ e = -1074)

theorem Digits.unitOf_eq {m : ℕ} {e : ℤ} (h : Digits m e) : unitOf m e = e := by
  obtain ⟨hm, he, hunit⟩ := h
  have hlog : m.log2 ≤ 52 := by
    rcases Nat.eq_zero_or_pos m with rfl | hpos
    · simp
    · exact Nat.lt_succ_iff.mp ((Nat.log2_lt hpos.ne').mpr hm)
  rw [Double.unitOf_eq]
  rcases hunit with hm' | he'
  · have hlog' : 52 ≤ m.log2 := (Nat.le_log2 (by omega)).mpr hm'
    omega
  · omega

/-- Fifty-four digits are reached only by a carry, which leaves zeros behind it. -/
theorem digits_shiftToTargetExponent {m : ℕ} {e : ℤ} (hm : m ≤ 2 ^ 53) (he : -1074 ≤ e)
    (hunit : 2 ^ 52 ≤ m ∨ e = -1074) {em : ExtendedMantissa} {t : ℤ}
    (h : shiftToTargetExponent .binary64 m e .exact = (em, t)) :
    (em.mantissa : ℚ) * 2 ^ t = m * 2 ^ e ∧ Digits em.mantissa t := by
  rcases Nat.lt_or_eq_of_le hm with hlt | rfl
  · have hdigits : Digits m e := ⟨hlt, he, hunit⟩
    rw [shiftToTargetExponent_of_unitOf hdigits.unitOf_eq le_rfl, Int.sub_self] at h
    cases h
    exact ⟨rfl, hdigits⟩
  · have hcarry : unitOf (2 ^ 53) e = e + 1 := by
      rw [Double.unitOf_eq, Nat.log2_two_pow]
      omega
    rw [shiftToTargetExponent_of_unitOf hcarry (by omega), show e + 1 - e = 1 by omega] at h
    cases h
    have hhalf : (ofMantissaAndAccuracy (2 ^ 53) .exact >>> (1 : ℤ).toNat).mantissa = 2 ^ 52 := rfl
    rw [hhalf, zpow_add_one₀ two_ne_zero]
    refine ⟨?_, by norm_num, by omega, Or.inl le_rfl⟩
    norm_num
    ring

/-! ## Rounded results -/

/-- A number with a sign. -/
def signed : Sign → ℚ → ℚ
  | .negative, x => -x
  | .positive, x => x

/-- What a finite float stands for. -/
def value : UnpackedFloat → ℚ
  | .finite s m e _ => signed s (m * 2 ^ e)
  | _ => 0

/-- The form that floats are compared in. -/
def Canonical : UnpackedFloat → Prop
  | .finite _ m e _ => Digits m e
  | _ => True

/-- A float that stands for the nearest double of a number. -/
structure Rounds (u : UnpackedFloat) (v : ℚ) : Prop where
  finite : u.isFinite = true
  canonical : Canonical u
  nearest : Nearest v (value u)

theorem Nearest.signed {v r : ℚ} (h : Nearest v r) (s : Sign) :
    Nearest (signed s v) (signed s r) := by
  cases s with
  | negative => exact h.neg
  | positive => exact h

theorem signed_zero (s : Sign) : signed s 0 = 0 := by
  cases s <;> simp [Double.signed]

theorem mantissa_ofMantissaAndAccuracy (m : ℕ) (acc : Accuracy) :
    (ofMantissaAndAccuracy m acc).mantissa = m := by
  rcases acc with _ | _ | _ | _ <;> rfl

section

variable {m : ℕ} {acc : Accuracy}

/-- The raised unit leaves no more than fifty-three digits. -/
theorem Reads.div_lt (h : Reads (ofMantissaAndAccuracy m acc) x) {n : ℕ} (hn : m.log2 ≤ 52 + n) :
    x / 2 ^ n < 2 ^ 53 := by
  have hlt := mantissa_ofMantissaAndAccuracy m acc ▸ h.lt
  have hm : m + 1 ≤ 2 ^ (53 + n) := calc
    m + 1 ≤ 2 ^ (m.log2 + 1) := Nat.lt_log2_self
    _ ≤ 2 ^ (53 + n) := Nat.pow_le_pow_right two_pos (by omega)
  have hm' : (m : ℚ) + 1 ≤ 2 ^ 53 * 2 ^ n := by
    rw [← pow_add]
    exact_mod_cast hm
  rw [div_lt_iff₀ (by positivity)]
  linarith

/-- It leaves all fifty-three of them if it is raised for their sake. -/
theorem Reads.le_div (h : Reads (ofMantissaAndAccuracy m acc) x) {n : ℕ} (hn : m.log2 = 52 + n) :
    2 ^ 52 ≤ x / 2 ^ n := by
  have hle := mantissa_ofMantissaAndAccuracy m acc ▸ h.mantissa_le
  have hpos : m ≠ 0 := by
    rintro rfl
    simp at hn
    omega
  have hm : 2 ^ (52 + n) ≤ m := hn ▸ Nat.log2_self_le hpos
  have hm' : (2 : ℚ) ^ 52 * 2 ^ n ≤ m := by
    rw [← pow_add]
    exact_mod_cast hm
  rw [le_div_iff₀ (by positivity)]
  linarith

/-- A unit that is no larger than fifty-three digits ask for gives the nearest double. -/
theorem rounds_roundWithAccuracy {e : ℤ} (h : Reads (ofMantissaAndAccuracy m acc) x)
    (he : e ≤ unitOf m e) (s : Sign) :
    Rounds (roundWithAccuracy .binary64 s m e acc) (signed s (x * 2 ^ e)) := by
  obtain ⟨n, hn⟩ : ∃ n : ℕ, unitOf m e = e + n := ⟨(unitOf m e - e).toNat, by omega⟩
  have hlog := hn ▸ unitOf_eq m e
  -- The number in the raised unit, its digits and the rest.
  have hread := h.shiftRight n
  have hlt : x / 2 ^ n < 2 ^ 53 := h.div_lt (by omega)
  have hunit : 2 ^ 52 ≤ x / 2 ^ n ∨ e + n = -1074 := by
    rcases eq_or_ne (e + n) (-1074) with hleast | hleast
    · exact Or.inr hleast
    · exact Or.inl (h.le_div (by omega))
  obtain ⟨em, hem⟩ : ∃ em, ofMantissaAndAccuracy m acc >>> n = em := ⟨_, rfl⟩
  rw [hem] at hread
  have hmantissa : em.mantissa < 2 ^ 53 := by exact_mod_cast hread.mantissa_le.trans_lt hlt
  have hnear := nearest_of_abs_sub_le_half ((roundedMantissa_le em).trans hmantissa) (by omega)
    hunit hread.abs_roundedMantissa_sub_le
  have hexact : x / 2 ^ n * 2 ^ (e + n) = x * 2 ^ e := by
    rw [two_zpow_add]
    field_simp
  have hunit' : 2 ^ 52 ≤ em.roundedMantissa ∨ e + n = -1074 := by
    refine hunit.imp_left fun hle => le_trans ?_ (le_roundedMantissa em)
    exact Nat.lt_succ_iff.mp (by exact_mod_cast hle.trans_lt hread.lt)
  -- What is left is to take care of a carry.
  obtain ⟨⟨em₂, t⟩, hfinal⟩ :
      ∃ p, shiftToTargetExponent .binary64 em.roundedMantissa (e + n) .exact = p := ⟨_, rfl⟩
  obtain ⟨hvalue, hdigits⟩ := digits_shiftToTargetExponent
    ((roundedMantissa_le em).trans hmantissa) (by omega) hunit' hfinal
  have hsigned : Nearest (signed s (x * 2 ^ e)) (signed s (em₂.mantissa * 2 ^ t)) := by
    rw [hvalue, ← hexact]
    exact hnear.signed s
  simp only [roundWithAccuracy, shiftToTargetExponent_of_unitOf hn (by omega),
    show (e + n - e).toNat = n by omega, hem, hfinal]
  split_ifs with hzero
  · rw [hzero, Nat.cast_zero, zero_mul, signed_zero] at hsigned
    exact ⟨rfl, trivial, hsigned⟩
  · exact ⟨rfl, hdigits, hsigned⟩

end

theorem log2_shiftLeft {m : ℕ} (hm : 0 < m) (n : ℕ) : (m <<< n).log2 = m.log2 + n := by
  rw [Nat.shiftLeft_eq]
  induction n with
  | zero => simp
  | succ n ih =>
      rw [pow_succ, ← mul_assoc, mul_comm _ 2, Nat.log2_two_mul (by positivity), ih, Nat.add_assoc]

theorem decreaseExponent_value (m : ℕ) (e t : ℤ) :
    ((decreaseExponent m e t).1 : ℚ) * 2 ^ (decreaseExponent m e t).2 = m * 2 ^ e := by
  simp only [decreaseExponent, Nat.shiftLeft_eq]
  rw [two_zpow_eq e (e - t).toNat]
  push_cast
  ring

theorem rounds_round {m : ℕ} (hm : 0 < m) (e : ℤ) (s : Sign) :
    Rounds (UnpackedFloat.round .binary64 s m e) (signed s (m * 2 ^ e)) := by
  have hvalue := decreaseExponent_value m e (unitOf m e)
  have hle : (decreaseExponent m e (unitOf m e)).2 ≤
      unitOf (decreaseExponent m e (unitOf m e)).1 (decreaseExponent m e (unitOf m e)).2 := by
    have hunit := unitOf_eq m e
    simp only [decreaseExponent, unitOf_eq (m <<< _), log2_shiftLeft hm]
    omega
  rw [← hvalue]
  exact rounds_roundWithAccuracy (reads_natCast _) hle s

theorem rounds_normalize (n e : ℤ) (zeroSign : Sign) :
    Rounds (UnpackedFloat.normalize .binary64 n e zeroSign) (n * 2 ^ e) := by
  unfold UnpackedFloat.normalize
  split
  next h =>
    have hneg : n < 0 := compare_lt_iff_lt.mp h
    have hcast : (((-n).toNat : ℕ) : ℚ) = -n := by
      exact_mod_cast Int.toNat_of_nonneg (by omega : 0 ≤ -n)
    have hround := rounds_round (by omega : 0 < (-n).toNat) e .negative
    rw [hcast] at hround
    simpa [signed] using hround
  next h =>
    have hzero : n = 0 := compare_eq_iff_eq.mp h
    rw [hzero, Int.cast_zero, zero_mul]
    exact ⟨rfl, trivial, nearest_self isDouble_zero⟩
  next h =>
    have hpos : 0 < n := compare_gt_iff_gt.mp h
    have hcast : ((n.toNat : ℕ) : ℚ) = n := by
      exact_mod_cast Int.toNat_of_nonneg hpos.le
    have hround := rounds_round (by omega : 0 < n.toNat) e .positive
    rwa [hcast] at hround

end LinkTuner.Double

import LinkTuner.Proofs.Decimal.Nearest

/-!
# The shortest digits read back

The search for the fewest digits tries one decimal grid after another. A grid whose step is less
than half of the interval around a double has a point in it next to the double, and seventeen digits
are enough for such a step. So the search ends with a number that reads back.
-/

namespace LinkTuner.Decimal

open Double (Digits)
open LinkTuner.Decimal.Interval

/-- What a decimal number stands for. -/
def Scaled.value (s : Scaled) : ℚ := s.digits * 10 ^ s.exponent

theorem Scaled.value_trimmed (turns : ℕ) (s : Scaled) : (s.trimmed turns).value = s.value := by
  induction turns generalizing s with
  | zero => rfl
  | succ turns ih =>
      rw [Scaled.trimmed]
      split_ifs with hzero
      · rw [ih, Scaled.value, Scaled.value, zpow_add_one₀ (by norm_num)]
        have hten : (s.digits : ℚ) = 10 * (s.digits / 10 : ℕ) := by
          exact_mod_cast (Nat.mul_div_cancel' (Nat.dvd_of_mod_eq_zero hzero.1)).symm
        rw [hten]
        push_cast
        ring
      · rfl

/-! ## Grids -/

section

variable {i : Interval} {t : ℤ}

theorem scaleByTen_pos (n : ℕ) {d : ℕ} (hd : 0 < d) (t : ℤ) : 0 < (scaleByTen n d t).2 :=
  Nat.mul_pos hd (tenTo_pos _)

theorem unit_eq_scaled (i : Interval) (t : ℤ) :
    i.unit = (scaleByTen i.unitNum i.unitDen t).1 / (scaleByTen i.unitNum i.unitDen t).2 *
      10 ^ t := by
  rw [scaleByTen_div, div_mul_cancel₀ _ (zpow_ne_zero t (by norm_num)), Interval.unit]

/-- Points of a grid and of the interval are compared in whole numbers. -/
theorem scaled_le_iff (hden : 0 < i.unitDen) {a c : ℕ} :
    a * (scaleByTen i.unitNum i.unitDen t).1 ≤ c * (scaleByTen i.unitNum i.unitDen t).2 ↔
      a * i.unit ≤ c * 10 ^ t := by
  have hpos : (0 : ℚ) < (scaleByTen i.unitNum i.unitDen t).2 := by
    exact_mod_cast scaleByTen_pos _ hden t
  rw [unit_eq_scaled i t, ← mul_assoc, mul_le_mul_iff_left₀ (zpow_pos (by norm_num) t),
    ← mul_div_assoc, div_le_iff₀ hpos]
  exact_mod_cast Iff.rfl

theorem le_scaled_iff (hden : 0 < i.unitDen) {a c : ℕ} :
    c * (scaleByTen i.unitNum i.unitDen t).2 ≤ a * (scaleByTen i.unitNum i.unitDen t).1 ↔
      c * 10 ^ t ≤ a * i.unit := by
  have hpos : (0 : ℚ) < (scaleByTen i.unitNum i.unitDen t).2 := by
    exact_mod_cast scaleByTen_pos _ hden t
  rw [unit_eq_scaled i t, ← mul_assoc, mul_le_mul_iff_left₀ (zpow_pos (by norm_num) t),
    ← mul_div_assoc, le_div_iff₀ hpos]
  exact_mod_cast Iff.rfl

theorem holds_iff (hden : 0 < i.unitDen) {c : ℕ} :
    i.holds t c = true ↔ i.Contains (c * 10 ^ t) := by
  simp only [holds, Contains]
  split_ifs with hclosed
  · simp only [Bool.and_eq_true, decide_eq_true_eq, scaled_le_iff hden, le_scaled_iff hden]
  · simp only [Bool.and_eq_true, decide_eq_true_eq, ← not_le, scaled_le_iff hden,
      le_scaled_iff hden]

/-- A point that a grid offers lies in the interval. -/
theorem contains_of_onGrid (hden : 0 < i.unitDen) {tie : Tie} {c : ℕ}
    (h : i.onGrid tie t = some c) : i.Contains (c * 10 ^ t) := by
  rw [← holds_iff hden]
  simp only [onGrid] at h
  split at h
  next hbelow habove =>
    rw [Option.some.injEq] at h
    split_ifs at h <;> subst h
    · exact hbelow
    · exact habove
  next hbelow _ =>
    rw [← Option.some.inj h]
    exact hbelow
  next _ habove =>
    rw [← Option.some.inj h]
    exact habove
  next => cases h

theorem contains_of_lt {v : ℚ} (hlow : i.low * i.unit < v) (hhigh : v < i.high * i.unit) :
    i.Contains v := by
  unfold Contains
  split_ifs
  · exact ⟨hlow.le, hhigh.le⟩
  · exact ⟨hlow, hhigh⟩

/-- A grid whose step is not as long as each half of the interval offers a point. -/
theorem isSome_onGrid (hden : 0 < i.unitDen) (tie : Tie)
    (hlow : i.low * i.unit + 10 ^ t / 2 < i.value * i.unit)
    (hhigh : i.value * i.unit + 10 ^ t / 2 < i.high * i.unit) :
    (i.onGrid tie t).isSome = true := by
  have hstep : (0 : ℚ) < 10 ^ t := zpow_pos (by norm_num) _
  obtain ⟨below, hbelow⟩ : ∃ c, i.value * (scaleByTen i.unitNum i.unitDen t).1 /
      (scaleByTen i.unitNum i.unitDen t).2 = c := ⟨_, rfl⟩
  have hle : (below : ℚ) * 10 ^ t ≤ i.value * i.unit :=
    (le_scaled_iff hden).mp (hbelow ▸ Nat.div_mul_le_self _ _)
  have hlt : i.value * i.unit < (below + 1 : ℕ) * 10 ^ t := by
    rw [← not_le, ← le_scaled_iff hden, not_le, ← hbelow]
    exact Nat.lt_mul_of_div_lt (Nat.lt_succ_self _) (scaleByTen_pos _ hden t)
  have hone : i.holds t below = true ∨ i.holds t (below + 1) = true := by
    rw [holds_iff hden, holds_iff hden]
    rcases le_or_gt (i.value * i.unit) (below * 10 ^ t + 10 ^ t / 2) with hnear | hfar
    · exact .inl (contains_of_lt (by linarith) (by linarith))
    · push_cast at hlt ⊢
      exact .inr (contains_of_lt (by linarith) (by linarith))
  simp only [onGrid, hbelow]
  split
  next => rfl
  next => rfl
  next => rfl
  next hbelow' habove' =>
    rw [hbelow', habove'] at hone
    simp at hone

/-- The search ends with a number in the interval if one of its grids offers a point. -/
theorem contains_search (hden : 0 < i.unitDen) {tie : Tie} {k turns : ℕ} (hk : k < turns)
    (h : (i.onGrid tie (t - k)).isSome = true) : i.Contains (i.search tie turns t).value := by
  induction turns generalizing t k with
  | zero => exact absurd hk (Nat.not_lt_zero k)
  | succ turns ih =>
      rw [search]
      split
      next c hgrid => exact contains_of_onGrid hden hgrid
      next hgrid =>
        cases k with
        | zero =>
            rw [Nat.cast_zero, sub_zero, hgrid] at h
            cases h
        | succ k =>
            apply ih (Nat.lt_of_succ_lt_succ hk)
            rwa [sub_sub, add_comm, ← Nat.cast_succ]

end

/-! ## The first grid -/

/-- The number of binary digits gives that of decimal digits but for two. -/
theorem ten_zpow_le_two_zpow {q k : ℤ} (hq : 4096 * q ≤ 1233 * k) (hk : -6000 ≤ k) :
    (10 : ℚ) ^ (q - 2) ≤ 2 ^ (k - 1) := by
  have hlow : (10 : ℚ) ^ (1233 : ℤ) ≤ 2 ^ (4096 : ℤ) := by
    have h : (10 : ℕ) ^ 1233 ≤ 2 ^ 4096 := by decide +kernel
    exact_mod_cast h
  have hhigh : (2 : ℚ) ^ (4096 : ℤ) ≤ 10 ^ (1234 : ℤ) := by
    have h : (2 : ℕ) ^ 4096 ≤ 10 ^ 1234 := by decide +kernel
    exact_mod_cast h
  have hten : (10 : ℚ) ^ (1233 * k - 8192 + 1234) ≤ 2 ^ (4096 * k) := by
    rcases le_or_gt 0 k with hpos | hneg
    · calc (10 : ℚ) ^ (1233 * k - 8192 + 1234) ≤ 10 ^ (1233 * k) :=
            zpow_le_zpow_right₀ (by norm_num) (by omega)
        _ = (10 ^ (1233 : ℤ)) ^ k := zpow_mul _ _ _
        _ ≤ (2 ^ (4096 : ℤ)) ^ k := zpow_le_zpow_left₀ hpos (by positivity) hlow
        _ = 2 ^ (4096 * k) := (zpow_mul _ _ _).symm
    · calc (10 : ℚ) ^ (1233 * k - 8192 + 1234) ≤ 10 ^ (1234 * k) :=
            zpow_le_zpow_right₀ (by norm_num) (by omega)
        _ = ((10 ^ (1234 : ℤ)) ^ (-k))⁻¹ := by rw [← zpow_mul, ← zpow_neg, mul_neg, neg_neg]
        _ ≤ ((2 ^ (4096 : ℤ)) ^ (-k))⁻¹ :=
            inv_anti₀ (by positivity) (zpow_le_zpow_left₀ (by omega) (by positivity) hhigh)
        _ = 2 ^ (4096 * k) := by rw [← zpow_mul, ← zpow_neg, mul_neg, neg_neg]
  have hpower (x : ℚ) (n : ℤ) : (x ^ n) ^ 4096 = x ^ (n * 4096) := by
    rw [zpow_mul, ← zpow_natCast]
    rfl
  apply le_of_pow_le_pow_left₀ (by norm_num : (4096 : ℕ) ≠ 0) (by positivity)
  rw [hpower, hpower, sub_mul, sub_mul, zpow_sub₀ two_ne_zero, le_div_iff₀ (by positivity)]
  calc (10 : ℚ) ^ (q * 4096 - 2 * 4096) * 2 ^ (1 * 4096 : ℤ)
      ≤ 10 ^ (1233 * k - 8192) * 10 ^ (1234 : ℤ) := by
        refine mul_le_mul (zpow_le_zpow_right₀ (by norm_num) (by omega)) hhigh ?_ ?_ <;> positivity
    _ = 10 ^ (1233 * k - 8192 + 1234) := (zpow_add₀ (by norm_num) _ _).symm
    _ ≤ 2 ^ (4096 * k) := hten
    _ = 2 ^ (k * 4096) := by rw [mul_comm]

theorem le_of_magnitudeFrom {n d turns : ℕ} (hd : 0 < d) {k : ℤ}
    (h : (10 : ℚ) ^ (k - 1) ≤ n / d) : (10 : ℚ) ^ (magnitudeFrom n d turns k - 1) ≤ n / d := by
  induction turns generalizing k with
  | zero => exact h
  | succ turns ih =>
      have hpos : (0 : ℚ) < (scaleByTen n d k).2 := by exact_mod_cast scaleByTen_pos n hd k
      simp only [magnitudeFrom]
      split_ifs with hle
      · apply ih
        rw [add_sub_cancel_right, ← one_le_div₀ (by positivity), ← scaleByTen_div,
          one_le_div₀ hpos]
        exact_mod_cast hle
      · exact h

/-- The power of ten that is found for a quotient is not too large. -/
theorem ten_zpow_magnitude_le {n d : ℕ} (hn : 0 < n) (hd : 0 < d)
    (h : (2 : ℚ) ^ (-5000 : ℤ) ≤ n / d) : (10 : ℚ) ^ (magnitude n d - 1) ≤ n / d := by
  obtain ⟨hlow, hhigh⟩ := log2_div_bounds hn hd
  have hk : (-5000 : ℤ) < n.log2 - d.log2 + 1 :=
    (zpow_lt_zpow_iff_right₀ one_lt_two).mp (h.trans_lt hhigh)
  have hq : 4096 * Int.fdiv (((n.log2 : ℤ) - d.log2) * 1233) 4096 ≤
      1233 * ((n.log2 : ℤ) - d.log2) := by
    rw [Int.fdiv_eq_ediv_of_nonneg _ (by norm_num)]
    omega
  apply le_of_magnitudeFrom hd
  rw [sub_sub]
  exact (ten_zpow_le_two_zpow hq (by omega)).trans hlow.le

/-! ## Seventeen digits -/

section

variable {m : ℕ} {e : ℤ}

theorem unitDen_around_pos (m : ℕ) (e : ℤ) : 0 < (around m e).unitDen :=
  Nat.mul_pos Nat.one_pos (twoTo_pos _)

theorem value_around (m : ℕ) (e : ℤ) : (around m e).value * (around m e).unit = m * 2 ^ e := by
  rw [unit_around, around]
  push_cast
  ring

theorem numerator_around_pos (hm : 0 < m) (e : ℤ) :
    0 < (around m e).value * (around m e).unitNum :=
  Nat.mul_pos (Nat.mul_pos (by norm_num) hm) (Nat.mul_pos Nat.one_pos (twoTo_pos _))

theorem quotient_around (m : ℕ) (e : ℤ) :
    (((around m e).value * (around m e).unitNum : ℕ) : ℚ) / (around m e).unitDen = m * 2 ^ e := by
  rw [← value_around, Interval.unit]
  push_cast
  ring

/-- A step that is at most `10 ^ (-16)` of a double is not as long as the halves of its interval. -/
theorem step_lt_gapBelow (hdigits : Digits m e) {x : ℚ} (hx : x * 10 ^ 16 ≤ m * 2 ^ e) :
    x / 2 < gapBelow m e * 2 ^ e ∧ x < 2 ^ e := by
  have hpos : (0 : ℚ) < 2 ^ e := zpow_pos two_pos _
  have hlt : (m : ℚ) * 2 ^ e < 2 ^ 53 * 2 ^ e :=
    mul_lt_mul_of_pos_right (by exact_mod_cast hdigits.1) hpos
  have hstep : x < 2 ^ e := by linarith
  refine ⟨?_, hstep⟩
  unfold gapBelow
  split_ifs with hpower
  · obtain ⟨rfl, -⟩ := hpower
    norm_num [hiddenBit] at hx
    linarith
  · linarith

/-- The fewest digits that are found for a double read back as it. -/
theorem contains_shortest (tie : Tie) (hm : 0 < m) (hdigits : Digits m e) :
    (around m e).Contains (shortest tie m e).value := by
  have hden := unitDen_around_pos m e
  have hleast : (2 : ℚ) ^ (-5000 : ℤ) ≤ m * 2 ^ e := by
    calc (2 : ℚ) ^ (-5000 : ℤ) ≤ 2 ^ e :=
          zpow_le_zpow_right₀ one_le_two (by have := hdigits.2.1; omega)
      _ ≤ m * 2 ^ e := le_mul_of_one_le_left (by positivity) (by exact_mod_cast hm)
  have hmagnitude := ten_zpow_magnitude_le (numerator_around_pos hm e) hden
    (by rwa [quotient_around])
  rw [quotient_around] at hmagnitude
  obtain ⟨k, hk⟩ : ∃ k, magnitude ((around m e).value * (around m e).unitNum)
      (around m e).unitDen = k := ⟨_, rfl⟩
  rw [hk] at hmagnitude
  -- The seventeenth grid.
  have hstep : (10 : ℚ) ^ (k - 1 - (16 : ℕ)) * 10 ^ 16 ≤ m * 2 ^ e := by
    rwa [← zpow_natCast, ← zpow_add₀ (by norm_num), sub_add_cancel]
  obtain ⟨hlow, hhigh⟩ := step_lt_gapBelow hdigits hstep
  rw [shortest, hk, Scaled.value_trimmed]
  refine contains_search hden (by norm_num : 16 < 17) (isSome_onGrid hden tie ?_ ?_)
  · rw [low_around hm, value_around, sub_mul]
    linarith
  · rw [high_around, value_around, add_mul, one_div_mul_eq_div]
    exact add_lt_add_right (div_lt_div_of_pos_right hhigh two_pos) _

end

end LinkTuner.Decimal

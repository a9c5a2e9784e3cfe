import LinkTuner.Decimal.Shortest
import LinkTuner.Proofs.Decimal.Digits
import LinkTuner.Proofs.Double.Rounding

/-!
# Numbers that read back as a double

The interval around a double ends half a unit of its last place above it and as much, or half of
that at a power of two, below it. Every quotient in the interval is rounded to the bits of the
double: it has the same unit or lies just below a power of two, from where it is rounded up to it.
-/

namespace LinkTuner.Decimal

open Double (Digits)

/-! ## Rounding a quotient -/

theorem cast_div_eq_add (num : ℕ) {den : ℕ} (hden : 0 < den) :
    (num : ℚ) / den = (num / den : ℕ) + ((num % den : ℕ) : ℚ) / den := by
  have hden' : (den : ℚ) ≠ 0 := by exact_mod_cast hden.ne'
  field_simp
  exact_mod_cast (Nat.div_add_mod num den).symm

/-- The whole number that is half a unit away at most, and even if it is just that far away. -/
theorem roundDiv_eq {num den q : ℕ} (hden : 0 < den) (h : |(num : ℚ) / den - q| ≤ 1 / 2)
    (htie : |(num : ℚ) / den - q| = 1 / 2 → q % 2 = 0) : roundDiv num den = q := by
  have hden' : (0 : ℚ) < den := by exact_mod_cast hden
  obtain ⟨k, hk⟩ : ∃ k, num / den = k := ⟨_, rfl⟩
  obtain ⟨x, hx⟩ : ∃ x : ℚ, ((num % den : ℕ) : ℚ) / den = x := ⟨_, rfl⟩
  rw [cast_div_eq_add num hden, hk, hx] at h htie
  obtain ⟨hlow, hhigh⟩ := abs_le.mp h
  have hbelow : 2 * (num % den) < den ↔ x < 1 / 2 := by
    rw [← hx, div_lt_div_iff₀ hden' two_pos, one_mul, mul_comm]
    exact_mod_cast Iff.rfl
  have habove : den < 2 * (num % den) ↔ 1 / 2 < x := by
    rw [← hx, div_lt_div_iff₀ two_pos hden', one_mul, mul_comm _ (2 : ℚ)]
    exact_mod_cast Iff.rfl
  have hpos : 0 ≤ x := hx ▸ by positivity
  have hlt : x < 1 := by
    rw [← hx, div_lt_one hden']
    exact_mod_cast Nat.mod_lt num hden
  have hupper : q ≤ k + 1 := by
    have : (q : ℚ) < (k + 1 + 1 : ℕ) := by push_cast; linarith
    exact Nat.lt_succ_iff.mp (by exact_mod_cast this)
  have hlower : k ≤ q := by
    have : (k : ℚ) < (q + 1 : ℕ) := by push_cast; linarith
    exact Nat.lt_succ_iff.mp (by exact_mod_cast this)
  simp only [roundDiv, hk, hbelow, habove]
  split_ifs with hless hmore heven
  · by_contra hne
    obtain rfl : q = k + 1 := by omega
    push_cast at hlow
    linarith
  · by_contra hne
    obtain rfl : q = k := by omega
    linarith
  · by_contra hne
    obtain rfl : q = k + 1 := by omega
    have hodd := htie (by rw [show x = 1 / 2 by linarith]; push_cast; ring_nf; norm_num)
    omega
  · by_contra hne
    obtain rfl : q = k := by omega
    have := htie (by rw [show x = 1 / 2 by linarith]; ring_nf; norm_num)
    omega

/-! ## The unit of a quotient -/

/-- The unit of the last place that a magnitude has in a double. -/
structure UnitOf (v : ℚ) (e : ℤ) : Prop where
  least : -1074 ≤ e
  lt : v < 2 ^ 53 * 2 ^ e
  le : 2 ^ 52 * 2 ^ e ≤ v ∨ e = -1074

theorem UnitOf.eq {v : ℚ} {e e' : ℤ} (h : UnitOf v e) (h' : UnitOf v e') : e = e' := by
  have hlt {e e' : ℤ} (h : UnitOf v e) (h' : UnitOf v e') : ¬e < e' := by
    intro hlt
    have hle := h'.le.resolve_right (by have := h.least; omega)
    have hpow : (2 : ℚ) ^ (e + 1) ≤ 2 ^ e' := zpow_le_zpow_right₀ one_le_two (by omega)
    rw [zpow_add_one₀ two_ne_zero] at hpow
    linarith [h.lt]
  have := hlt h h'
  have := hlt h' h
  omega

theorem twoTo_pos (n : ℕ) : 0 < twoTo n := Nat.two_pow_pos n

theorem tenTo_pos (n : ℕ) : 0 < tenTo n := Nat.pow_pos (by norm_num)

/-- A power with a negative exponent goes below the line. -/
theorem zpow_eq_toNat_div {x : ℚ} (hx : x ≠ 0) (k : ℤ) : x ^ k = x ^ k.toNat / x ^ (-k).toNat := by
  rw [← zpow_natCast, ← zpow_natCast, ← zpow_sub₀ hx]
  congr 1
  omega

theorem scaleByTwo_div (num den : ℕ) (e : ℤ) :
    ((scaleByTwo num den e).1 : ℚ) / (scaleByTwo num den e).2 = num / den / 2 ^ e := by
  rw [zpow_eq_toNat_div two_ne_zero]
  simp only [scaleByTwo, twoTo_eq]
  push_cast
  field_simp

theorem scaleByTwo_pos (num : ℕ) {den : ℕ} (hden : 0 < den) (e : ℤ) :
    0 < (scaleByTwo num den e).2 :=
  Nat.mul_pos hden (twoTo_pos _)

/-- Rounding a quotient in a unit. -/
theorem roundDiv_scaleByTwo {num den q : ℕ} (hden : 0 < den) {e : ℤ}
    (h : |(num : ℚ) / den / 2 ^ e - q| ≤ 1 / 2)
    (htie : |(num : ℚ) / den / 2 ^ e - q| = 1 / 2 → q % 2 = 0) :
    roundDiv (scaleByTwo num den e).1 (scaleByTwo num den e).2 = q := by
  rw [← scaleByTwo_div] at h htie
  exact roundDiv_eq (scaleByTwo_pos num hden e) h htie

theorem scaleByTen_div (n d : ℕ) (t : ℤ) :
    ((scaleByTen n d t).1 : ℚ) / (scaleByTen n d t).2 = n / d / 10 ^ t := by
  rw [zpow_eq_toNat_div (by norm_num)]
  simp only [scaleByTen, tenTo_eq]
  push_cast
  field_simp

/-- A magnitude as its digits and its place, in the bits of a double. -/
def codeOf (m : ℕ) (e : ℤ) : ℕ := (e + 1074).toNat * hiddenBit + m

theorem log2_cast_le {n : ℕ} (hn : 0 < n) : (2 : ℚ) ^ (n.log2 : ℤ) ≤ n := by
  rw [zpow_natCast]
  exact_mod_cast Nat.log2_self_le hn.ne'

theorem cast_lt_log2 (n : ℕ) : (n : ℚ) < 2 ^ (n.log2 + 1 : ℤ) := by
  exact_mod_cast Nat.lt_log2_self

/-- The numbers of binary digits give the quotient but for a factor of two. -/
theorem log2_div_bounds {num den : ℕ} (hnum : 0 < num) (hden : 0 < den) :
    (2 : ℚ) ^ ((num.log2 : ℤ) - den.log2 - 1) < num / den ∧
      (num : ℚ) / den < 2 ^ ((num.log2 : ℤ) - den.log2 + 1) := by
  have hden' : (0 : ℚ) < den := by exact_mod_cast hden
  constructor
  · rw [lt_div_iff₀ hden']
    calc (2 : ℚ) ^ ((num.log2 : ℤ) - den.log2 - 1) * den
        < 2 ^ ((num.log2 : ℤ) - den.log2 - 1) * 2 ^ (den.log2 + 1 : ℤ) :=
          mul_lt_mul_of_pos_left (cast_lt_log2 den) (zpow_pos two_pos _)
      _ = 2 ^ (num.log2 : ℤ) := by
          rw [← zpow_add₀ two_ne_zero]
          congr 1
          ring
      _ ≤ num := log2_cast_le hnum
  · rw [div_lt_iff₀ hden']
    calc (num : ℚ) < 2 ^ (num.log2 + 1 : ℤ) := cast_lt_log2 num
      _ = 2 ^ ((num.log2 : ℤ) - den.log2 + 1) * 2 ^ (den.log2 : ℤ) := by
          rw [← zpow_add₀ two_ne_zero]
          congr 1
          ring
      _ ≤ 2 ^ ((num.log2 : ℤ) - den.log2 + 1) * den :=
          mul_le_mul_of_nonneg_left (log2_cast_le hden) (zpow_pos two_pos _).le

/-- The bits of a quotient are those of its digits in its unit, rounded to a whole number. -/
theorem nearest_of_unitOf {num den : ℕ} (hnum : 0 < num) (hden : 0 < den) {e : ℤ}
    (h : UnitOf ((num : ℚ) / den) e) :
    nearest num den =
      min (codeOf (roundDiv (scaleByTwo num den e).1 (scaleByTwo num den e).2) e) infinityBits := by
  obtain ⟨hlow, hhigh⟩ := log2_div_bounds hnum hden
  obtain ⟨v, hv⟩ : ∃ v : ℚ, (num : ℚ) / den = v := ⟨_, rfl⟩
  obtain ⟨guess, hguess⟩ :
    ∃ g : ℤ, max ((num.log2 : ℤ) - den.log2 - 53) (-1074) = g := ⟨_, rfl⟩
  rw [hv] at h hlow hhigh
  -- The guess is the unit or one place below it.
  have hpast : (scaleByTwo num den guess).2 * (2 * hiddenBit) ≤ (scaleByTwo num den guess).1 ↔
      2 ^ 53 * 2 ^ guess ≤ v := by
    have hpos : (0 : ℚ) < (scaleByTwo num den guess).2 := by
      exact_mod_cast scaleByTwo_pos num hden guess
    rw [← le_div_iff₀ (zpow_pos two_pos _), ← hv, ← scaleByTwo_div, le_div_iff₀ hpos, mul_comm]
    exact_mod_cast Iff.rfl
  have hunit : UnitOf v (if (scaleByTwo num den guess).2 * (2 * hiddenBit) ≤
      (scaleByTwo num den guess).1 then guess + 1 else guess) := by
    simp only [hpast]
    split_ifs with hle
    · refine ⟨by omega, hhigh.trans_le ?_, .inl ?_⟩
      · rw [show (2 : ℚ) ^ 53 = 2 ^ (53 : ℤ) by norm_num, ← zpow_add₀ two_ne_zero]
        exact zpow_le_zpow_right₀ one_le_two (by omega)
      · rw [zpow_add_one₀ two_ne_zero]
        linarith
    · refine ⟨by omega, not_le.mp hle, ?_⟩
      rcases eq_or_ne guess (-1074) with hleast | hleast
      · exact .inr hleast
      · refine .inl (le_trans ?_ hlow.le)
        rw [show (2 : ℚ) ^ 52 = 2 ^ (52 : ℤ) by norm_num, ← zpow_add₀ two_ne_zero]
        exact zpow_le_zpow_right₀ one_le_two (by omega)
  have heq := h.eq hunit
  simp only [nearest, if_neg hnum.ne', hguess, ← heq, codeOf]

/-! ## The interval around a double -/

namespace Interval

/-- The unit in which an interval is given. -/
def unit (i : Interval) : ℚ := i.unitNum / i.unitDen

/-- The number lies in the interval. -/
def Contains (i : Interval) (v : ℚ) : Prop :=
  if i.closed then i.low * i.unit ≤ v ∧ v ≤ i.high * i.unit
  else i.low * i.unit < v ∧ v < i.high * i.unit

theorem Contains.le {i : Interval} {v : ℚ} (h : i.Contains v) :
    i.low * i.unit ≤ v ∧ v ≤ i.high * i.unit := by
  unfold Contains at h
  split_ifs at h
  · exact h
  · exact ⟨h.1.le, h.2.le⟩

/-- Only a closed interval holds its ends. -/
theorem Contains.closed_of_eq {i : Interval} {v : ℚ} (h : i.Contains v)
    (hend : v = i.low * i.unit ∨ v = i.high * i.unit) : i.closed = true := by
  unfold Contains at h
  split_ifs at h with hclosed
  · exact hclosed
  · rcases hend with rfl | rfl
    · exact absurd h.1 (lt_irrefl _)
    · exact absurd h.2 (lt_irrefl _)

theorem unit_around (m : ℕ) (e : ℤ) : (around m e).unit = 2 ^ e / 4 := by
  have h : (around m e).unit = (1 : ℕ) / (1 : ℕ) / 2 ^ (2 - e) := scaleByTwo_div 1 1 (2 - e)
  rw [h, zpow_sub₀ two_ne_zero]
  push_cast
  field_simp

/-- The upper end lies half a unit of the last place above the double. -/
theorem high_around (m : ℕ) (e : ℤ) :
    (around m e).high * (around m e).unit = (m + 1 / 2) * 2 ^ e := by
  rw [unit_around, around]
  push_cast
  ring

/-- How far the lower end lies below the double, in units of its last place. -/
def gapBelow (m : ℕ) (e : ℤ) : ℚ := if m = hiddenBit ∧ -1074 < e then 1 / 4 else 1 / 2

theorem low_around {m : ℕ} (hm : 0 < m) (e : ℤ) :
    (around m e).low * (around m e).unit = (m - gapBelow m e) * 2 ^ e := by
  rw [unit_around, around, gapBelow]
  dsimp only
  split_ifs with hpower
  · rw [Nat.cast_sub (by omega)]
    push_cast
    ring
  · rw [Nat.cast_sub (by omega)]
    push_cast
    ring

theorem gapBelow_le (m : ℕ) (e : ℤ) : gapBelow m e ≤ 1 / 2 := by
  unfold gapBelow
  split_ifs <;> norm_num

end Interval

open LinkTuner.Decimal.Interval

section

variable {m : ℕ} {e : ℤ} {v : ℚ}

/-- A number in the interval around a double, in units of its last place. -/
theorem abs_sub_le_of_contains (hm : 0 < m) (h : (around m e).Contains v) :
    |v / 2 ^ e - m| ≤ 1 / 2 := by
  have hpos : (0 : ℚ) < 2 ^ e := zpow_pos two_pos _
  obtain ⟨hlow, hhigh⟩ := h.le
  rw [low_around hm, ← le_div_iff₀ hpos] at hlow
  rw [high_around, ← div_le_iff₀ hpos] at hhigh
  have hgap := gapBelow_le m e
  rw [abs_le]
  constructor <;> linarith

/-- The interval around an odd number of units is open. -/
theorem even_of_contains (hm : 0 < m) (h : (around m e).Contains v)
    (htie : |v / 2 ^ e - m| = 1 / 2) : m % 2 = 0 := by
  have hpos : (0 : ℚ) < 2 ^ e := zpow_pos two_pos _
  have hclosed : (around m e).closed = true := by
    obtain ⟨hlow, -⟩ := h.le
    apply h.closed_of_eq
    rcases (abs_eq (by norm_num)).mp htie with hright | hleft
    · right
      rw [high_around, ← div_eq_iff hpos.ne']
      linarith
    · left
      rw [low_around hm, ← le_div_iff₀ hpos] at hlow
      rw [low_around hm, ← div_eq_iff hpos.ne']
      have hgap := gapBelow_le m e
      linarith
  exact of_decide_eq_true hclosed

section

variable {num den : ℕ} (hnum : 0 < num) (hden : 0 < den)

include hnum hden

theorem nearest_of_same_unit (hm : 0 < m) (hdigits : Digits m e)
    (h : (around m e).Contains ((num : ℚ) / den))
    (hsame : 2 ^ 52 * 2 ^ e ≤ (num : ℚ) / den ∨ e = -1074) :
    nearest num den = min (codeOf m e) infinityBits := by
  have hnear := abs_sub_le_of_contains hm h
  have hv : UnitOf ((num : ℚ) / den) e := by
    refine ⟨hdigits.2.1, ?_, hsame⟩
    rw [← div_lt_iff₀ (zpow_pos two_pos _)]
    have hlt : (m : ℚ) + 1 ≤ 2 ^ 53 := by exact_mod_cast hdigits.1
    linarith [(abs_le.mp hnear).2]
  have hround := roundDiv_scaleByTwo hden hnear (even_of_contains hm h)
  rw [nearest_of_unitOf hnum hden hv, hround]

/-- Just below a power of two the unit is half as large, and the number is rounded up to it. -/
theorem nearest_of_lt_power (he : -1074 < e)
    (h : (around hiddenBit e).Contains ((num : ℚ) / den))
    (hbelow : (num : ℚ) / den < 2 ^ 52 * 2 ^ e) :
    nearest num den = min (codeOf hiddenBit e) infinityBits := by
  have hpos : (0 : ℚ) < 2 ^ e := zpow_pos two_pos _
  have hpos' : (0 : ℚ) < 2 ^ (e - 1) := zpow_pos two_pos _
  have hquarter : gapBelow hiddenBit e = 1 / 4 := if_pos ⟨rfl, he⟩
  have hcast : (hiddenBit : ℚ) = 2 ^ 52 := by norm_num [hiddenBit]
  have hhalf : (num : ℚ) / den / 2 ^ (e - 1) = 2 * (num / den / 2 ^ e) := by
    rw [zpow_sub_one₀ two_ne_zero]
    field_simp
  have hlow := h.le.1
  rw [low_around (by decide), hquarter, ← le_div_iff₀ hpos, hcast] at hlow
  rw [← div_lt_iff₀ hpos] at hbelow
  have hv : UnitOf ((num : ℚ) / den) (e - 1) := by
    refine ⟨by omega, ?_, .inl ?_⟩
    · rw [← div_lt_iff₀ hpos', hhalf]
      linarith
    · rw [← le_div_iff₀ hpos', hhalf]
      linarith
  have hround : roundDiv (scaleByTwo num den (e - 1)).1 (scaleByTwo num den (e - 1)).2 =
      2 * hiddenBit := by
    apply roundDiv_scaleByTwo hden
    · rw [hhalf, Nat.cast_mul, hcast, abs_le]
      constructor
      · push_cast
        linarith
      · push_cast
        linarith
    · intro _
      exact Nat.mul_mod_right 2 hiddenBit
  have hcode : codeOf (2 * hiddenBit) (e - 1) = codeOf hiddenBit e := by
    simp only [codeOf, hiddenBit]
    omega
  rw [nearest_of_unitOf hnum hden hv, hround, hcode]

/-- A quotient in the interval around a double is rounded to it. -/
theorem nearest_of_contains (hm : 0 < m) (hdigits : Digits m e)
    (h : (around m e).Contains ((num : ℚ) / den)) :
    nearest num den = min (codeOf m e) infinityBits := by
  by_cases hsame : 2 ^ 52 * 2 ^ e ≤ (num : ℚ) / den ∨ e = -1074
  · exact nearest_of_same_unit hnum hden hm hdigits h hsame
  · obtain ⟨hbelow, hne⟩ := not_or.mp hsame
    rw [not_le] at hbelow
    -- Only the least of the normal digits has an interval that reaches below them.
    have hlow := (abs_le.mp (abs_sub_le_of_contains hm h)).1
    have hunits := (div_lt_iff₀ (zpow_pos two_pos e)).mpr hbelow
    obtain rfl : m = hiddenBit := by
      have : (m : ℚ) < (2 ^ 52 + 1 : ℕ) := by push_cast; linarith
      have : m < 2 ^ 52 + 1 := by exact_mod_cast this
      exact Nat.le_antisymm (Nat.lt_succ_iff.mp this) (hdigits.2.2.resolve_right hne)
    exact nearest_of_lt_power hnum hden (lt_of_le_of_ne hdigits.2.1 (Ne.symm hne)) h hbelow

end

end

end LinkTuner.Decimal

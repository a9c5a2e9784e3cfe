import Mathlib

/-!
# The nearest double

A double that is not too large holds a whole multiple of a power of two, with at most fifty-three
digits and none below the place `-1074`. A result of arithmetic is replaced by the nearest of these
numbers. Which of two equally near ones is taken plays no part here: rounding does not cross a
double, and between zero and a power of two it is off by at most half a unit of the last place. So a
number that is moved by a share of its distance to another one stays in the interval of both.
-/

namespace LinkTuner.Double

/-- A number that a double holds, how large it is apart. -/
def IsDouble (x : ℚ) : Prop := ∃ n e : ℤ, |n| ≤ 2 ^ 53 ∧ -1074 ≤ e ∧ x = n * 2 ^ e

theorem isDouble_zero : IsDouble 0 := ⟨0, 0, by norm_num, by norm_num, by norm_num⟩

theorem isDouble_zpow {k : ℤ} (hk : -1074 ≤ k) : IsDouble (2 ^ k) :=
  ⟨1, k, by norm_num, hk, by norm_num⟩

theorem IsDouble.neg {x : ℚ} (h : IsDouble x) : IsDouble (-x) := by
  obtain ⟨n, e, hn, he, rfl⟩ := h
  exact ⟨-n, e, by rwa [abs_neg], he, by push_cast; ring⟩

theorem IsDouble.abs {x : ℚ} (h : IsDouble x) : IsDouble |x| := by
  rcases abs_choice x with hx | hx <;> rw [hx]
  · exact h
  · exact h.neg

/-- A double to which no other is nearer. -/
structure Nearest (v r : ℚ) : Prop where
  isDouble : IsDouble r
  le : ∀ c, IsDouble c → |r - v| ≤ |c - v|

theorem nearest_self {v : ℚ} (h : IsDouble v) : Nearest v v :=
  ⟨h, fun c _ => by simp⟩

namespace Nearest

variable {v r c : ℚ}

theorem neg (h : Nearest v r) : Nearest (-v) (-r) where
  isDouble := h.isDouble.neg
  le c hc := by
    have hr : |-r - -v| = |r - v| := by rw [← abs_neg]; congr 1; ring
    have hc' : |c - -v| = |-c - v| := by rw [← abs_neg]; congr 1; ring
    rw [hr, hc']
    exact h.le (-c) hc.neg

theorem eq_of_isDouble (h : Nearest v r) (hv : IsDouble v) : r = v := by
  have hle := h.le v hv
  rwa [sub_self, abs_zero, abs_nonpos_iff, sub_eq_zero] at hle

/-- Rounding does not cross a double from below. -/
theorem le_of_le (h : Nearest v r) (hc : IsDouble c) (hv : v ≤ c) : r ≤ c := by
  have hle := h.le c hc
  rw [abs_of_nonneg (sub_nonneg.mpr hv)] at hle
  linarith [le_abs_self (r - v)]

/-- Rounding does not cross a double from above. -/
theorem le_of_ge (h : Nearest v r) (hc : IsDouble c) (hv : c ≤ v) : c ≤ r :=
  neg_le_neg_iff.mp (h.neg.le_of_le hc.neg (neg_le_neg hv))

theorem abs_le_of_abs_le (h : Nearest v r) (hc : IsDouble c) (hv : |v| ≤ c) : |r| ≤ c := by
  obtain ⟨hlow, hhigh⟩ := abs_le.mp hv
  exact abs_le.mpr ⟨h.le_of_ge hc.neg hlow, h.le_of_le hc hhigh⟩

end Nearest

theorem two_zpow_add (k : ℤ) (n : ℕ) : (2 : ℚ) ^ (k + n) = 2 ^ k * 2 ^ n := by
  rw [zpow_add₀ two_ne_zero, zpow_natCast]

theorem two_zpow_eq (k : ℤ) (n : ℕ) : (2 : ℚ) ^ k = 2 ^ n * 2 ^ (k - n) := by
  rw [mul_comm, ← two_zpow_add, sub_add_cancel]

theorem abs_sub_le_of_abs_sub_le_half {y : ℚ} {n : ℤ} (h : |n - y| ≤ 1 / 2) (m : ℤ) :
    |n - y| ≤ |m - y| := by
  rcases eq_or_ne n m with rfl | hne
  · exact le_rfl
  · have hone : (1 : ℚ) ≤ |(n : ℚ) - m| := by
      exact_mod_cast Int.one_le_abs (sub_ne_zero.mpr hne)
    have htriangle : |(n : ℚ) - m| ≤ |n - y| + |m - y| := by
      rw [abs_sub_comm (m : ℚ) y]
      exact abs_sub_le _ _ _
    linarith

/-- The nearest whole multiple of a unit is the nearest double if fifty-three digits leave no
smaller unit. -/
theorem nearest_of_abs_sub_le_half {y : ℚ} {n : ℕ} {e : ℤ} (hn : n ≤ 2 ^ 53) (he : -1074 ≤ e)
    (hunit : 2 ^ 52 ≤ y ∨ e = -1074) (h : |n - y| ≤ 1 / 2) : Nearest (y * 2 ^ e) (n * 2 ^ e) := by
  have hpos : (0 : ℚ) < 2 ^ e := zpow_pos two_pos _
  have hinteger (m : ℤ) : |(n : ℚ) - y| ≤ |m - y| := by
    exact_mod_cast abs_sub_le_of_abs_sub_le_half (n := (n : ℤ)) (by exact_mod_cast h) m
  refine ⟨⟨n, e, by simpa using mod_cast hn, he, by norm_num⟩, ?_⟩
  rintro c ⟨m, f, hm, hf, rfl⟩
  rw [← sub_mul, abs_mul, abs_of_pos hpos]
  rcases le_or_gt e f with hle | hlt
  · obtain ⟨j, rfl⟩ : ∃ j : ℕ, f = e + j := ⟨(f - e).toNat, by omega⟩
    have hmultiple : (m : ℚ) * 2 ^ (e + j) = (m * 2 ^ j : ℤ) * 2 ^ e := by
      rw [two_zpow_add]
      push_cast
      ring
    rw [hmultiple, ← sub_mul, abs_mul, abs_of_pos hpos]
    exact mul_le_mul_of_nonneg_right (by exact_mod_cast hinteger (m * 2 ^ j)) hpos.le
  · -- A double with a smaller unit is at most the least number that leaves only this one.
    have hy : (2 : ℚ) ^ 52 ≤ y := hunit.resolve_right (by omega)
    have hsmall : (m : ℚ) * 2 ^ f ≤ 2 ^ 52 * 2 ^ e := by
      have hm' : (m : ℚ) ≤ 2 ^ 53 := by exact_mod_cast (le_abs_self m).trans hm
      have hle : (2 : ℚ) ^ f ≤ 2 ^ (e - 1) := zpow_le_zpow_right₀ one_le_two (by omega)
      calc (m : ℚ) * 2 ^ f ≤ 2 ^ 53 * 2 ^ (e - 1) :=
            mul_le_mul hm' hle (zpow_pos two_pos _).le (by norm_num)
        _ = 2 ^ 52 * 2 ^ e := by rw [two_zpow_eq e 1]; norm_num; ring
    have hle := hinteger (2 ^ 52)
    rw [Int.cast_pow, Int.cast_ofNat, abs_of_nonpos (sub_nonpos.mpr hy)] at hle
    have hscaled := mul_le_mul_of_nonneg_right hy hpos.le
    have hle' := mul_le_mul_of_nonneg_right hle hpos.le
    rw [abs_of_nonpos (by linarith : m * 2 ^ f - y * 2 ^ e ≤ 0)]
    linarith

/-! ## Between zero and a power of two -/

variable {k : ℤ}

/-- Up to a power of two, doubles lie closer than half a unit of its last place to every number. -/
theorem exists_isDouble_near (hk : -1021 ≤ k) {v : ℚ} (hv : |v| ≤ 2 ^ k) :
    ∃ c, IsDouble c ∧ |c - v| ≤ 2 ^ (k - 54) := by
  have hunit : (0 : ℚ) < 2 ^ (k - 53) := zpow_pos two_pos _
  have hsplit : (2 : ℚ) ^ k = 2 ^ 53 * 2 ^ (k - 53) := two_zpow_eq k 53
  have hhalf : (2 : ℚ) ^ (k - 54) = 1 / 2 * 2 ^ (k - 53) := by
    rw [two_zpow_eq (k - 53) 1, show k - 53 - (1 : ℕ) = k - 54 by omega]
    ring
  set y := v / 2 ^ (k - 53) with hy
  have hvy : v = y * 2 ^ (k - 53) := by rw [hy]; field_simp
  have hround := abs_sub_round y
  refine ⟨round y * 2 ^ (k - 53), ⟨round y, k - 53, ?_, by omega, rfl⟩, ?_⟩
  · have hybound : |y| ≤ 2 ^ 53 := by
      rw [hy, abs_div, abs_of_pos hunit, div_le_iff₀ hunit, ← hsplit]
      exact hv
    obtain ⟨hlow, hhigh⟩ := abs_le.mp hybound
    rw [round_eq]
    refine abs_le.mpr ⟨Int.le_floor.mpr ?_, Int.lt_add_one_iff.mp (Int.floor_lt.mpr ?_)⟩
    · push_cast
      linarith
    · push_cast
      linarith
  · rw [hvy, ← sub_mul, abs_mul, abs_of_pos hunit, hhalf, abs_sub_comm]
    exact mul_le_mul_of_nonneg_right hround hunit.le

/-- There is no double just above a power of two. -/
theorem IsDouble.add_le_of_lt {c : ℚ} (hc : IsDouble c) (hlt : 2 ^ k < c) :
    2 ^ k + 2 ^ (k - 52) ≤ c := by
  obtain ⟨n, e, hn, -, rfl⟩ := hc
  have hunit : (0 : ℚ) < 2 ^ (k - 52) := zpow_pos two_pos _
  rcases lt_or_ge e (k - 52) with he | he
  · -- A double whose last place is that low has too few digits.
    have hn' : (n : ℚ) ≤ 2 ^ 53 := by exact_mod_cast (le_abs_self n).trans hn
    have hle : (2 : ℚ) ^ e ≤ 2 ^ (k - 53) := zpow_le_zpow_right₀ one_le_two (by omega)
    have hsplit : (2 : ℚ) ^ k = 2 ^ 53 * 2 ^ (k - 53) := two_zpow_eq k 53
    have hmul : (n : ℚ) * 2 ^ e ≤ 2 ^ 53 * 2 ^ (k - 53) :=
      mul_le_mul hn' hle (zpow_pos two_pos _).le (by norm_num)
    linarith
  · obtain ⟨j, rfl⟩ : ∃ j : ℕ, e = k - 52 + j := ⟨(e - (k - 52)).toNat, by omega⟩
    have hsplit : (2 : ℚ) ^ k = 2 ^ 52 * 2 ^ (k - 52) := two_zpow_eq k 52
    rw [two_zpow_add, hsplit] at hlt ⊢
    have hlt' : ((2 ^ 52 : ℤ) : ℚ) < (n * 2 ^ j : ℤ) := by
      push_cast
      exact lt_of_mul_lt_mul_right (by linarith) hunit.le
    have hle : ((2 ^ 52 + 1 : ℤ) : ℚ) ≤ (n * 2 ^ j : ℤ) :=
      Int.cast_le.mpr (Int.add_one_le_of_lt (Int.cast_lt.mp hlt'))
    push_cast at hle
    linarith [mul_le_mul_of_nonneg_right hle hunit.le]

namespace Nearest

variable {v r : ℚ}

theorem abs_sub_le (h : Nearest v r) (hk : -1021 ≤ k) (hv : |v| ≤ 2 ^ k) :
    |r - v| ≤ 2 ^ (k - 54) := by
  obtain ⟨c, hc, hcv⟩ := exists_isDouble_near hk hv
  exact (h.le c hc).trans hcv

/-- A power of two is the nearest double of what exceeds it a little. -/
theorem le_zpow (h : Nearest v r) (hk : -1022 ≤ k) (hv : v ≤ 2 ^ k + 2 ^ (k - 54)) : r ≤ 2 ^ k := by
  by_contra hr
  have hgap := h.isDouble.add_le_of_lt (not_le.mp hr)
  have hhalf : (2 : ℚ) ^ (k - 52) = 4 * 2 ^ (k - 54) := by
    rw [two_zpow_eq (k - 52) 2, show k - 52 - (2 : ℕ) = k - 54 by omega]
    norm_num
  have hpos : (0 : ℚ) < 2 ^ (k - 54) := zpow_pos two_pos _
  rcases le_or_gt v (2 ^ k) with hle | hlt
  · exact hr (h.le_of_le (isDouble_zpow (by omega)) hle)
  · have hnear := h.le (2 ^ k) (isDouble_zpow (by omega))
    rw [abs_of_neg (by linarith : 2 ^ k - v < 0)] at hnear
    linarith [le_abs_self (r - v)]

end Nearest

/-! ## Moving by a share -/

/-- A number between zero and a power of two. -/
def Within (k : ℤ) (x : ℚ) : Prop := 0 ≤ x ∧ x ≤ 2 ^ k

theorem Within.abs_le {x : ℚ} (h : Within k x) : |x| ≤ 2 ^ k := by
  rw [abs_of_nonneg h.1]
  exact h.2

theorem Within.abs_sub_le {x y : ℚ} (hx : Within k x) (hy : Within k y) : |y - x| ≤ 2 ^ k := by
  rw [abs_sub_le_iff]
  constructor <;> linarith [hx.1, hx.2, hy.1, hy.2]

/-- A share is no greater than what it is of. -/
theorem Within.abs_mul_le {share d c : ℚ} (h : Within 0 share) (hd : |d| ≤ c) :
    |share * d| ≤ c := by
  have hone : |share| ≤ 1 := by simpa using h.abs_le
  rw [abs_mul]
  exact (mul_le_of_le_one_left (abs_nonneg d) hone).trans hd

/-- A number moved by a share of its distance to another one, each result rounded: the distance,
the share of it and the sum. -/
structure Moved (x y share d t r : ℚ) : Prop where
  distance : Nearest (y - x) d
  part : Nearest (share * d) t
  sum : Nearest (x + t) r

namespace Moved

variable {x y share d t r : ℚ}

/-- Both numbers lie between zero and a power of two, and so does what the first one is moved to.
Downwards this is monotonicity. Upwards the rounded distance can be too long, but by less than what
rounding the sum makes up for. -/
theorem within (h : Moved x y share d t r) (hshare : Within 0 share) (hk : -1021 ≤ k)
    (hx : Within k x) (hdx : IsDouble x) (hy : Within k y) : Within k r := by
  have hone : share ≤ 1 := by simpa using hshare.2
  have htop : IsDouble (2 ^ k) := isDouble_zpow (by omega)
  rcases le_total x y with hxy | hyx
  · have hd : 0 ≤ d := h.distance.le_of_ge isDouble_zero (sub_nonneg.mpr hxy)
    have ht : 0 ≤ t := h.part.le_of_ge isDouble_zero (mul_nonneg hshare.1 hd)
    have htd : t ≤ d := h.part.le_of_le h.distance.isDouble (mul_le_of_le_one_left hd hone)
    have hoff := h.distance.abs_sub_le hk (hx.abs_sub_le hy)
    refine ⟨h.sum.le_of_ge isDouble_zero (add_nonneg hx.1 ht), h.sum.le_zpow (by omega) ?_⟩
    linarith [le_abs_self (d - (y - x)), hy.2]
  · have hd : d ≤ 0 := h.distance.le_of_le isDouble_zero (sub_nonpos.mpr hyx)
    have hxd : -x ≤ d := h.distance.le_of_ge hdx.neg (by linarith [hy.1])
    have hpart : share * d ≤ 0 := mul_nonpos_of_nonneg_of_nonpos hshare.1 hd
    have ht : t ≤ 0 := h.part.le_of_le isDouble_zero hpart
    have hdt : d ≤ t := h.part.le_of_ge h.distance.isDouble
      (by simpa using mul_le_mul_of_nonpos_right hone hd)
    refine ⟨h.sum.le_of_ge isDouble_zero (by linarith), h.sum.le_of_le htop ?_⟩
    linarith [hx.2]

end Moved

end LinkTuner.Double

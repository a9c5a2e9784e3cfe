import LinkTuner.Proofs.Arith.Greatest
import LinkTuner.Proofs.Double.Undefined

/-!
# Bounds of results

Rounding does not cross a double, so a result lies between the doubles between which the exact
result lies. This is all that is needed to follow a calculation of many steps through its whole
range: differences keep the order of what they are differences from, a sum is at least each of its
terms, and the greatest of some doubles is the greatest of what they hold.
-/

namespace LinkTuner.Double

open Float.Model (UnpackedFloat)

variable {x y : Float} {a b v : ℚ} {k : ℤ}

/-! ## Intervals -/

/-- A bound that a double holds. -/
structure Edge (a : ℚ) : Prop where
  isDouble : IsDouble a
  fits : Fits a

/-- A double holds one number only. -/
theorem Holds.unique (hx : Holds x a) (hx' : Holds x b) : a = b :=
  hx.value_eq.symm.trans hx'.value_eq

theorem Holds.edge (h : Holds x v) : Edge v := ⟨h.isDouble, h.abs_lt⟩

theorem edge_zero : Edge 0 := holds_zero.edge

theorem edge_one : Edge 1 := holds_one.edge

/-- A whole number of units is a bound if it has no more than fifty-three digits. -/
theorem edge_mul_zpow {n : ℕ} (hn : n ≤ 2 ^ 53) (hlow : -1074 ≤ k) (hhigh : k ≤ 970) :
    Edge (n * 2 ^ k) := by
  refine ⟨⟨n, k, by simpa using mod_cast hn, hlow, by norm_num⟩, ?_⟩
  have hn : (n : ℚ) ≤ 2 ^ 53 := by exact_mod_cast hn
  rw [Fits, abs_of_nonneg (by positivity)]
  calc (n : ℚ) * 2 ^ k ≤ 2 ^ 53 * 2 ^ (970 : ℤ) :=
        mul_le_mul hn (zpow_le_zpow_right₀ one_le_two hhigh) (by positivity) (by positivity)
    _ < 2 ^ (1024 : ℤ) := by rw [two_zpow_eq 1024 54]; norm_num

theorem edge_zpow (hlow : -1074 ≤ k) (hhigh : k ≤ 970) : Edge (2 ^ k) := by
  simpa using edge_mul_zpow (show 1 ≤ 2 ^ 53 by norm_num) hlow hhigh

theorem Edge.neg (h : Edge a) : Edge (-a) := ⟨h.isDouble.neg, h.fits.neg⟩

/-- A result lies between bounds of the exact one, and no double is crossed on the way. -/
theorem Result.exists_between (h : Result x v) (ha : Edge a) (hb : Edge b) (hav : a ≤ v)
    (hvb : v ≤ b) : ∃ r, Holds x r ∧ a ≤ r ∧ r ≤ b ∧ ∀ c, IsDouble c → c ≤ v → c ≤ r := by
  obtain ⟨r, hr, hholds, -⟩ := h
  have hlow := hr.le_of_ge ha.isDouble hav
  have hhigh := hr.le_of_le hb.isDouble hvb
  exact ⟨r, hholds (ha.fits.of_between hb.fits hlow hhigh), hlow, hhigh,
    fun c hc => hr.le_of_ge hc⟩

/-- The double holds a number between two bounds. -/
def Lies (x : Float) (a b : ℚ) : Prop := ∃ v, Holds x v ∧ a ≤ v ∧ v ≤ b

theorem Result.lies (h : Result x v) (ha : Edge a) (hb : Edge b) (hav : a ≤ v) (hvb : v ≤ b) :
    Lies x a b := by
  obtain ⟨r, hr, hlow, hhigh, -⟩ := h.exists_between ha hb hav hvb
  exact ⟨r, hr, hlow, hhigh⟩

/-- An equality test tells whether the number is zero. -/
theorem Holds.beq_zero (h : Holds x v) (hv : v ≠ 0) : (x == 0.0) = false := by
  have hcompare : (form x).compare (form 0.0) = some (compare v 0) := by
    rw [compare_finite (canonical_form x) (canonical_form 0.0) h.finite holds_zero.finite,
      h.value_eq, holds_zero.value_eq]
  have hbeq : (x == 0.0) = ((form x).compare (form 0.0) == some .eq) := rfl
  rw [hbeq, hcompare]
  simpa using hv

theorem holds_ofNat {n : ℕ} (hn : n ≤ 2 ^ 53) : Holds (Float.ofNat n) n := by
  have hedge : Edge (n : ℚ) := by
    simpa using edge_mul_zpow (k := 0) hn (by norm_num) (by norm_num)
  exact (result_ofNat n).holds_of_isDouble hedge.isDouble hedge.fits

/-! ## The order of differences -/

/-- Rounding keeps the order. -/
theorem Nearest.le_of_lt {r v' r' : ℚ} (h : Nearest v r) (h' : Nearest v' r') (hlt : v < v') :
    r ≤ r' := by
  by_contra hr
  have hdown := sq_le_sq.mpr (h.le r' h'.isDouble)
  have hup := sq_le_sq.mpr (h'.le r h.isDouble)
  nlinarith

theorem Digits.unique {m m' : ℕ} {e e' : ℤ} (h : Digits m e) (h' : Digits m' e')
    (heq : (m : ℚ) * 2 ^ e = m' * 2 ^ e') : m = m' ∧ e = e' := by
  obtain rfl : e = e' := by
    rcases lt_trichotomy e e' with hlt | hexponent | hgt
    · exact absurd heq (lt_of_exponent_lt h h' hlt).ne
    · exact hexponent
    · exact absurd heq (lt_of_exponent_lt h' h hgt).ne'
  have hpos : (0 : ℚ) < 2 ^ e := zpow_pos two_pos _
  exact ⟨by exact_mod_cast mul_right_cancel₀ hpos.ne' heq, rfl⟩

/-- There is only one double for a number other than zero. -/
theorem Holds.form_eq (hx : Holds x v) (hy : Holds y v) (hv : v ≠ 0) : form x = form y := by
  have hcx := canonical_form x
  have hcy := canonical_form y
  have hvalue := hx.value_eq.trans hy.value_eq.symm
  have hne : value (form x) ≠ 0 := hx.value_eq ▸ hv
  obtain ⟨s, hfx⟩ | ⟨s, m, e, hm, hfx⟩ := finite_cases hx.finite
  · rw [hfx] at hne
    exact absurd rfl hne
  obtain ⟨s', hfy⟩ | ⟨s', m', e', hm', hfy⟩ := finite_cases hy.finite
  · rw [hvalue, hfy] at hne
    exact absurd rfl hne
  rw [hfx] at hcx
  rw [hfy] at hcy
  rw [hfx, hfy] at hvalue
  have habs : (m : ℚ) * 2 ^ e = m' * 2 ^ e' := by
    have h := congrArg abs hvalue
    rwa [value, value, abs_signed, abs_signed, abs_of_nonneg (by positivity),
      abs_of_nonneg (by positivity)] at h
  obtain ⟨rfl, rfl⟩ := Digits.unique hcx hcy habs
  have hsign : s = s' := by
    have hpos := value_positive_pos m e hm
    have hneg := value_negative_neg m e hm
    cases s <;> cases s' <;> first | rfl | linarith
  rw [hfx, hfy, hsign]

theorem IsDouble.exists_eq_mul (h : IsDouble v) : ∃ n : ℤ, v = n * 2 ^ (-1074 : ℤ) := by
  obtain ⟨n, e, -, he, rfl⟩ := h
  obtain ⟨j, rfl⟩ : ∃ j : ℕ, e = -1074 + j := ⟨(e + 1074).toNat, by omega⟩
  refine ⟨n * 2 ^ j, ?_⟩
  rw [two_zpow_add, Int.cast_mul, Int.cast_pow, Int.cast_ofNat, mul_assoc, mul_comm (2 ^ j)]

/-- Different doubles are apart by the least double at least. -/
theorem IsDouble.le_sub_of_lt (ha : IsDouble a) (hb : IsDouble b) (hlt : a < b) :
    2 ^ (-1074 : ℤ) ≤ b - a := by
  obtain ⟨n, rfl⟩ := ha.exists_eq_mul
  obtain ⟨m, rfl⟩ := hb.exists_eq_mul
  have hpos : (0 : ℚ) < 2 ^ (-1074 : ℤ) := zpow_pos two_pos _
  have hone : (1 : ℚ) ≤ m - n := by
    have hint : n < m := by exact_mod_cast lt_of_mul_lt_mul_right hlt hpos.le
    exact_mod_cast Int.sub_pos.mpr hint
  rw [← sub_mul]
  exact le_mul_of_one_le_left hpos.le hone

/-- The difference of different doubles is not rounded to zero. -/
theorem Holds.sub_pos {low : Float} {z w : ℚ} (hy : Holds y b) (hlow : Holds low z) (hlt : z < b)
    (hw : Holds (y - low) w) : 0 < w := by
  obtain ⟨r, hr, hfollows⟩ := (hy.sub hlow).exists_follows
  have hr' := hfollows.holds (hfollows.isFinite_iff.mp hw.finite)
  have heq : w = r := hw.unique hr'
  have hpos : (0 : ℚ) < 2 ^ (-1074 : ℤ) := zpow_pos two_pos _
  have hge : 2 ^ (-1074 : ℤ) ≤ r :=
    hr.le_of_ge (isDouble_zpow le_rfl) (hlow.isDouble.le_sub_of_lt hy.isDouble hlt)
  linarith

/-- As long as the difference of the greater number is finite, so is that of the smaller one, and
the differences are in the same order. -/
theorem Holds.exists_sub_le {low : Float} {z : ℚ} (hx : Holds x a) (hy : Holds y b)
    (hlow : Holds low z) (hza : z ≤ a) (hab : a ≤ b) (hfinite : (y - low).isFinite = true) :
    ∃ u w, Holds (x - low) u ∧ Holds (y - low) w ∧ 0 ≤ u ∧ u ≤ w := by
  obtain ⟨w, hw, hfollows⟩ := (hy.sub hlow).exists_follows
  have hfits := hfollows.isFinite_iff.mp hfinite
  have hyw := hfollows.holds hfits
  rcases hab.lt_or_eq with hlt | rfl
  · obtain ⟨u, hu, hholds, -⟩ := hx.sub hlow
    have hnonneg : 0 ≤ u := hu.le_of_ge isDouble_zero (sub_nonneg.mpr hza)
    have hle : u ≤ w := hu.le_of_lt hw (sub_lt_sub_right hlt z)
    exact ⟨u, w, hholds (edge_zero.fits.of_between hfits hnonneg hle), hyw, hnonneg, hle⟩
  · have hnonneg : 0 ≤ w := hw.le_of_ge isDouble_zero (sub_nonneg.mpr hza)
    refine ⟨w, w, ?_, hyw, hnonneg, le_rfl⟩
    rcases eq_or_ne a 0 with rfl | hne
    · -- Both are exact.
      rw [zero_sub] at hw
      have heq : w = -z := hw.eq_of_isDouble hlow.isDouble.neg
      have hresult := hx.sub hlow
      rw [zero_sub, ← heq] at hresult
      exact hresult.holds_of_isDouble hw.isDouble hfits
    · have hform : form (x - low) = UnpackedFloat.unpack .binary64
        (UnpackedFloat.pack .binary64 (UnpackedFloat.sub .binary64 (form x) (form low))) := rfl
      rw [hx.form_eq hy hne] at hform
      have heq : form (x - low) = form (y - low) := hform
      exact ⟨heq ▸ hyw.finite, heq ▸ hyw.value_eq⟩

/-! ## Lists -/

section

open Arith

/-- The greater of two doubles holds the greater of two numbers. -/
theorem Holds.greater (hx : Holds x a) (hy : Holds y b) : Holds (greater x y) (max a b) := by
  have hdefined : isUndefined y = false := hy.not_isNaN
  have hlt : lt y x = true ↔ b < a := decide_eq_true_iff.trans (hy.lt_iff_lt hx)
  simp only [Arith.greater, hdefined, Bool.false_or, hlt]
  split
  next h => rwa [max_eq_left h.le]
  next h => rwa [max_eq_right (not_lt.mp h)]

theorem exists_holds_foldl_greater (hx : Holds x a) {xs : List Float}
    (h : ∀ y ∈ xs, ∃ v, Holds y v) :
    ∃ t, Holds (xs.foldl Arith.greater x) t ∧ a ≤ t ∧ ∀ y ∈ xs, ∀ v, Holds y v → v ≤ t := by
  induction xs generalizing x a with
  | nil => exact ⟨a, hx, le_rfl, by simp⟩
  | cons y ys ih =>
      obtain ⟨⟨b, hb⟩, hys⟩ := List.forall_mem_cons.mp h
      obtain ⟨t, ht, hle, hall⟩ := ih (hx.greater hb) hys
      refine ⟨t, ht, (le_max_left a b).trans hle, List.forall_mem_cons.mpr ⟨?_, hall⟩⟩
      intro v hv
      rw [hv.unique hb]
      exact (le_max_right a b).trans hle

/-- The greatest double holds a number that none exceeds. -/
theorem exists_holds_greatest {xs : List Float} (hne : xs ≠ []) (h : ∀ x ∈ xs, ∃ v, Holds x v) :
    ∃ t, Holds (greatest xs) t ∧ ∀ x ∈ xs, ∀ v, Holds x v → v ≤ t := by
  obtain ⟨x, rest, rfl⟩ := List.exists_cons_of_ne_nil hne
  obtain ⟨⟨a, ha⟩, hrest⟩ := List.forall_mem_cons.mp h
  obtain ⟨t, ht, hle, hall⟩ := exists_holds_foldl_greater ha hrest
  refine ⟨t, ht, List.forall_mem_cons.mpr ⟨?_, hall⟩⟩
  intro v hv
  rwa [hv.unique ha]

/-- Adding up terms of an interval: no sum is more than as many of its upper bounds, and none less
than what it began with or one of its terms. -/
theorem exists_holds_foldl_add {n : ℕ} (hx : Holds x a) (hnonneg : 0 ≤ a) (hle : a ≤ n * 2 ^ k)
    (hlow : -1074 ≤ k) (hhigh : k ≤ 970) {xs : List Float} (hlength : n + xs.length ≤ 2 ^ 53)
    (h : ∀ y ∈ xs, Lies y 0 (2 ^ k)) :
    ∃ t, Holds (xs.foldl (· + ·) x) t ∧ a ≤ t ∧ t ≤ (n + xs.length : ℕ) * 2 ^ k ∧
      ∀ y ∈ xs, ∀ v, Holds y v → v ≤ t := by
  induction xs generalizing x a n with
  | nil => exact ⟨a, hx, le_rfl, by simpa using hle, by simp⟩
  | cons y ys ih =>
      obtain ⟨⟨b, hb, hzero, hbound⟩, hys⟩ := List.forall_mem_cons.mp h
      simp only [List.length_cons] at hlength ⊢
      have hsum : a + b ≤ (n + 1 : ℕ) * 2 ^ k := by
        push_cast
        linarith
      have hedge : Edge ((n + 1 : ℕ) * 2 ^ k) := edge_mul_zpow (by omega) hlow hhigh
      obtain ⟨r, hr, hge, hle', hall⟩ :=
        (hx.add hb).exists_between hx.edge hedge (by linarith) hsum
      have hge' : b ≤ r := hall b hb.isDouble (by linarith)
      obtain ⟨t, ht, hrt, htop, hall⟩ := ih hr (hnonneg.trans hge) hle' (by omega) hys
      refine ⟨t, ht, hge.trans hrt, ?_, List.forall_mem_cons.mpr ⟨?_, hall⟩⟩
      · rwa [show n + (ys.length + 1) = n + 1 + ys.length by omega]
      · intro v hv
        rw [hv.unique hb]
        exact hge'.trans hrt

theorem exists_holds_sum {xs : List Float} (hne : xs ≠ []) (hlow : -1074 ≤ k) (hhigh : k ≤ 970)
    (hlength : xs.length ≤ 2 ^ 53) (h : ∀ x ∈ xs, Lies x 0 (2 ^ k)) :
    ∃ t, Holds (sum xs) t ∧ t ≤ xs.length * 2 ^ k ∧ ∀ x ∈ xs, ∀ v, Holds x v → v ≤ t := by
  obtain ⟨x, rest, rfl⟩ := List.exists_cons_of_ne_nil hne
  obtain ⟨⟨a, ha, hzero, hbound⟩, hrest⟩ := List.forall_mem_cons.mp h
  rw [List.length_cons] at hlength
  obtain ⟨t, ht, hle, htop, hall⟩ := exists_holds_foldl_add (n := 1) ha hzero
    (by simpa using hbound) hlow hhigh (by omega) hrest
  refine ⟨t, ht, ?_, List.forall_mem_cons.mpr ⟨?_, hall⟩⟩
  · rwa [List.length_cons, Nat.add_comm]
  · intro v hv
    rwa [hv.unique ha]

/-- One undefined term leaves no sum defined. -/
theorem isNaN_foldl_add {xs : List Float} (h : x.isNaN = true ∨ ∃ y ∈ xs, y.isNaN = true) :
    (xs.foldl (· + ·) x).isNaN = true := by
  induction xs generalizing x with
  | nil => simpa using h
  | cons y ys ih =>
      apply ih
      rcases h with hx | ⟨z, hz, hnan⟩
      · exact .inl (isNaN_add_of_left hx)
      · rcases List.mem_cons.mp hz with rfl | hmem
        · exact .inl (isNaN_add_of_right hnan)
        · exact .inr ⟨z, hmem, hnan⟩

theorem isNaN_sum {xs : List Float} (h : ∃ x ∈ xs, x.isNaN = true) : (sum xs).isNaN = true := by
  obtain ⟨y, hy, hnan⟩ := h
  obtain ⟨x, rest, rfl⟩ := List.exists_cons_of_ne_nil (List.ne_nil_of_mem hy)
  rcases List.mem_cons.mp hy with rfl | hmem
  · exact isNaN_foldl_add (.inl hnan)
  · exact isNaN_foldl_add (.inr ⟨y, hmem, hnan⟩)

end

end LinkTuner.Double

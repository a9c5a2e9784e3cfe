import LinkTuner.Proofs.Double.Operations

/-!
# Comparing doubles

Defined doubles are compared as the numbers they stand for, with an infinity below and one above all
of them. An undefined double is neither below nor above another one.
-/

namespace LinkTuner.Double

open Float.Model Float.Model.UnpackedFloat

/-- The place of a defined float among all numbers and the two infinities. -/
def level : UnpackedFloat → WithBot (WithTop ℚ)
  | .infinity .negative => ⊥
  | .infinity .positive => ((⊤ : WithTop ℚ) : WithBot (WithTop ℚ))
  | u => ((value u : WithTop ℚ) : WithBot (WithTop ℚ))

section

variable {m m' : ℕ} {e e' : ℤ}

theorem lt_of_exponent_lt (h : Digits m e) (h' : Digits m' e') (hlt : e < e') :
    (m : ℚ) * 2 ^ e < m' * 2 ^ e' := by
  obtain ⟨hm, he, -⟩ := h
  obtain ⟨-, -, hunit⟩ := h'
  have hm : (m : ℚ) < 2 ^ 53 := by exact_mod_cast hm
  have hm' : (2 : ℚ) ^ 52 ≤ m' := by exact_mod_cast hunit.resolve_right (by omega)
  have hle : (2 : ℚ) * 2 ^ e ≤ 2 ^ e' := by
    rw [mul_comm, ← zpow_add_one₀ two_ne_zero]
    exact zpow_le_zpow_right₀ one_le_two (by omega)
  calc (m : ℚ) * 2 ^ e < 2 ^ 53 * 2 ^ e := mul_lt_mul_of_pos_right hm (zpow_pos two_pos _)
    _ = 2 ^ 52 * (2 * 2 ^ e) := by ring
    _ ≤ m' * 2 ^ e' := mul_le_mul hm' hle (by positivity) (by positivity)

/-- Exponents first, then digits. -/
theorem compare_digits (h : Digits m e) (h' : Digits m' e') :
    (compare e e').then (compare m m') = compare ((m : ℚ) * 2 ^ e) (m' * 2 ^ e') := by
  rcases lt_trichotomy e e' with hlt | rfl | hgt
  · rw [compare_lt_iff_lt.mpr hlt, compare_lt_iff_lt.mpr (lt_of_exponent_lt h h' hlt)]
    rfl
  · have hpos : (0 : ℚ) < 2 ^ e := zpow_pos two_pos _
    rw [compare_eq_iff_eq.mpr rfl, Ordering.then]
    rcases lt_trichotomy m m' with hlt | rfl | hgt
    · rw [compare_lt_iff_lt.mpr hlt, compare_lt_iff_lt.mpr]
      exact mul_lt_mul_of_pos_right (by exact_mod_cast hlt) hpos
    · rw [compare_eq_iff_eq.mpr rfl, compare_eq_iff_eq.mpr rfl]
    · rw [compare_gt_iff_gt.mpr hgt, compare_gt_iff_gt.mpr]
      exact mul_lt_mul_of_pos_right (by exact_mod_cast hgt) hpos
  · rw [compare_gt_iff_gt.mpr hgt, compare_gt_iff_gt.mpr (lt_of_exponent_lt h' h hgt)]
    rfl

end

theorem compare_coe (a b : ℚ) :
    compare ((a : WithTop ℚ) : WithBot (WithTop ℚ)) ((b : WithTop ℚ) : WithBot (WithTop ℚ)) =
      compare a b := by
  rcases lt_trichotomy a b with hlt | rfl | hgt
  · rw [compare_lt_iff_lt.mpr hlt, compare_lt_iff_lt.mpr (by exact_mod_cast hlt)]
  · rw [compare_eq_iff_eq.mpr rfl, compare_eq_iff_eq.mpr rfl]
  · rw [compare_gt_iff_gt.mpr hgt, compare_gt_iff_gt.mpr (by exact_mod_cast hgt)]

theorem compare_neg (a b : ℚ) : compare (-a) (-b) = (compare a b).swap := by
  rcases lt_trichotomy a b with hlt | rfl | hgt
  · rw [compare_lt_iff_lt.mpr hlt, compare_gt_iff_gt.mpr (neg_lt_neg hlt)]
    rfl
  · rw [compare_eq_iff_eq.mpr rfl, compare_eq_iff_eq.mpr rfl]
    rfl
  · rw [compare_gt_iff_gt.mpr hgt, compare_lt_iff_lt.mpr (neg_lt_neg hgt)]
    rfl

variable {u w : UnpackedFloat}

theorem level_of_isFinite (h : u.isFinite = true) :
    level u = ((value u : WithTop ℚ) : WithBot (WithTop ℚ)) := by
  obtain ⟨s, rfl⟩ | ⟨s, m, e, hm, rfl⟩ := finite_cases h <;> rfl

theorem value_positive_pos (m : ℕ) (e : ℤ) (hm : 0 < m) : 0 < value (.finite .positive m e hm) :=
  mul_pos (by exact_mod_cast hm) (zpow_pos two_pos _)

theorem value_negative_neg (m : ℕ) (e : ℤ) (hm : 0 < m) : value (.finite .negative m e hm) < 0 :=
  neg_lt_zero.mpr (value_positive_pos m e hm)

theorem compare_finite (hu : Canonical u) (hw : Canonical w) (hfu : u.isFinite = true)
    (hfw : w.isFinite = true) : u.compare w = some (compare (value u) (value w)) := by
  obtain ⟨s, rfl⟩ | ⟨s, m, e, hm, rfl⟩ := finite_cases hfu
  · obtain ⟨s', rfl⟩ | ⟨s', m', e', hm', rfl⟩ := finite_cases hfw
    · rfl
    · cases s' with
      | negative => exact congrArg some (compare_gt_iff_gt.mpr (value_negative_neg m' e' hm')).symm
      | positive => exact congrArg some (compare_lt_iff_lt.mpr (value_positive_pos m' e' hm')).symm
  · obtain ⟨s', rfl⟩ | ⟨s', m', e', hm', rfl⟩ := finite_cases hfw
    · cases s with
      | negative => exact congrArg some (compare_lt_iff_lt.mpr (value_negative_neg m e hm)).symm
      | positive => exact congrArg some (compare_gt_iff_gt.mpr (value_positive_pos m e hm)).symm
    · have hnegative := value_negative_neg m e hm
      have hnegative' := value_negative_neg m' e' hm'
      have hpositive := value_positive_pos m e hm
      have hpositive' := value_positive_pos m' e' hm'
      cases s <;> cases s'
      · exact congrArg some
          ((congrArg Ordering.swap (compare_digits hu hw)).trans (compare_neg _ _).symm)
      · exact congrArg some (compare_lt_iff_lt.mpr (hnegative.trans hpositive')).symm
      · exact congrArg some (compare_gt_iff_gt.mpr (hnegative'.trans hpositive)).symm
      · exact congrArg some (compare_digits hu hw)

theorem compare_infinity (h : u.isFinite = true) (s : Sign) :
    u.compare (.infinity s) = some (compare (level u) (level (.infinity s))) := by
  rw [level_of_isFinite h]
  cases s with
  | negative =>
      rw [level, compare_gt_iff_gt.mpr (WithBot.bot_lt_coe _)]
      obtain ⟨_, rfl⟩ | ⟨_, _, _, _, rfl⟩ := finite_cases h <;> rfl
  | positive =>
      rw [level, compare_lt_iff_lt.mpr (WithBot.coe_lt_coe.mpr (WithTop.coe_lt_top _))]
      obtain ⟨_, rfl⟩ | ⟨_, _, _, _, rfl⟩ := finite_cases h <;> rfl

theorem infinity_compare (h : u.isFinite = true) (s : Sign) :
    UnpackedFloat.compare (.infinity s) u = some (compare (level (.infinity s)) (level u)) := by
  rw [level_of_isFinite h]
  cases s with
  | negative =>
      rw [level, compare_lt_iff_lt.mpr (WithBot.bot_lt_coe _)]
      obtain ⟨_, rfl⟩ | ⟨_, _, _, _, rfl⟩ := finite_cases h <;> rfl
  | positive =>
      rw [level, compare_gt_iff_gt.mpr (WithBot.coe_lt_coe.mpr (WithTop.coe_lt_top _))]
      obtain ⟨_, rfl⟩ | ⟨_, _, _, _, rfl⟩ := finite_cases h <;> rfl

/-- A defined float is finite or an infinity. -/
theorem exists_infinity (hn : u.isNaN = false) (hf : u.isFinite = false) :
    ∃ s, u = .infinity s := by
  cases u with
  | notANumber => cases hn
  | infinity s => exact ⟨s, rfl⟩
  | zero s => cases hf
  | finite s m e hm => cases hf

/-- Defined floats are compared as what they stand for. -/
theorem compare_eq (hu : Canonical u) (hw : Canonical w) (hun : u.isNaN = false)
    (hwn : w.isNaN = false) : u.compare w = some (compare (level u) (level w)) := by
  cases hfu : u.isFinite with
  | true =>
      cases hfw : w.isFinite with
      | true =>
          rw [compare_finite hu hw hfu hfw, level_of_isFinite hfu, level_of_isFinite hfw,
            compare_coe]
      | false =>
          obtain ⟨s, rfl⟩ := exists_infinity hwn hfw
          exact compare_infinity hfu s
  | false =>
      obtain ⟨s, rfl⟩ := exists_infinity hun hfu
      cases hfw : w.isFinite with
      | true => exact infinity_compare hfw s
      | false =>
          obtain ⟨s', rfl⟩ := exists_infinity hwn hfw
          cases s <;> cases s' <;> rfl

theorem compare_notANumber (u : UnpackedFloat) : u.compare .notANumber = none := by
  cases u with
  | infinity s => cases s <;> rfl
  | _ => rfl

theorem not_isNaN_of_compare {o : Ordering} (h : u.compare w = some o) :
    u.isNaN = false ∧ w.isNaN = false := by
  constructor
  · cases u with
    | notANumber => cases h
    | _ => rfl
  · cases w with
    | notANumber =>
        rw [compare_notANumber] at h
        cases h
    | _ => rfl

theorem not_isNaN_of_isFinite (h : u.isFinite = true) : u.isNaN = false := by
  obtain ⟨_, rfl⟩ | ⟨_, _, _, _, rfl⟩ := finite_cases h <;> rfl

theorem not_isNaN_of_isInf (h : u.isInf = true) : u.isNaN = false := by
  obtain ⟨_, rfl⟩ := infinity_of_isInf h
  rfl

/-! ## Comparisons of doubles -/

variable {x y : Float}

theorem le_iff (hx : x.isNaN = false) (hy : y.isNaN = false) :
    x ≤ y ↔ level (form x) ≤ level (form y) := by
  have hcompare := compare_eq (canonical_form x) (canonical_form y) hx hy
  have hle : x ≤ y ↔ ((form x).compare (form y)).any (·.isLE) = true := decide_eq_true_iff
  rw [hle, hcompare, Option.any_some, Ordering.isLE_iff_ne_gt, compare_gt_iff_gt, not_lt]

theorem lt_iff (hx : x.isNaN = false) (hy : y.isNaN = false) :
    x < y ↔ level (form x) < level (form y) := by
  have hcompare := compare_eq (canonical_form x) (canonical_form y) hx hy
  have hlt : x < y ↔ ((form x).compare (form y) == some .lt) = true := decide_eq_true_iff
  rw [hlt, hcompare]
  simp [compare_lt_iff_lt]

/-- Only defined doubles are one below the other. -/
theorem not_isNaN_of_lt (h : x < y) : x.isNaN = false ∧ y.isNaN = false := by
  have hlt : ((form x).compare (form y) == some .lt) = true := of_decide_eq_true h
  exact not_isNaN_of_compare (beq_iff_eq.mp hlt)

theorem not_isNaN_of_le (h : x ≤ y) : x.isNaN = false ∧ y.isNaN = false := by
  have hle : ((form x).compare (form y)).any (·.isLE) = true := of_decide_eq_true h
  cases ho : (form x).compare (form y) with
  | none => simp [ho] at hle
  | some o => exact not_isNaN_of_compare ho

theorem not_lt_of_le (h : x ≤ y) : ¬y < x := by
  obtain ⟨hx, hy⟩ := not_isNaN_of_le h
  rw [lt_iff hy hx, not_lt]
  exact (le_iff hx hy).mp h

theorem not_lt_of_lt (h : x < y) : ¬y < x := by
  obtain ⟨hx, hy⟩ := not_isNaN_of_lt h
  rw [lt_iff hy hx]
  exact ((lt_iff hx hy).mp h).not_gt

theorem Holds.not_isNaN {v : ℚ} (h : Holds x v) : x.isNaN = false :=
  not_isNaN_of_isFinite h.finite

theorem Holds.level_eq {v : ℚ} (h : Holds x v) :
    level (form x) = ((v : WithTop ℚ) : WithBot (WithTop ℚ)) := by
  rw [level_of_isFinite h.finite, h.value_eq]

theorem Holds.le_iff_le {a b : ℚ} (hx : Holds x a) (hy : Holds y b) : x ≤ y ↔ a ≤ b := by
  rw [le_iff hx.not_isNaN hy.not_isNaN, hx.level_eq, hy.level_eq]
  exact_mod_cast Iff.rfl

theorem Holds.lt_iff_lt {a b : ℚ} (hx : Holds x a) (hy : Holds y b) : x < y ↔ a < b := by
  rw [lt_iff hx.not_isNaN hy.not_isNaN, hx.level_eq, hy.level_eq]
  exact_mod_cast Iff.rfl

/-- A defined double between two numbers holds a number between them. -/
theorem exists_holds_of_between {low high : Float} {a b : ℚ} (hlow : Holds low a)
    (hhigh : Holds high b) (hx : x.isNaN = false) (hle : ¬x < low) (hge : ¬high < x) :
    ∃ v, Holds x v ∧ a ≤ v ∧ v ≤ b := by
  rw [lt_iff hx hlow.not_isNaN, not_lt, hlow.level_eq] at hle
  rw [lt_iff hhigh.not_isNaN hx, not_lt, hhigh.level_eq] at hge
  have hfinite : (form x).isFinite = true := by
    by_contra hinfinite
    obtain ⟨s, hs⟩ : ∃ s, form x = .infinity s :=
      exists_infinity hx (Bool.eq_false_iff.mpr hinfinite)
    rw [hs] at hle hge
    cases s with
    | negative => exact absurd hle (not_le.mpr (WithBot.bot_lt_coe _))
    | positive => exact absurd (WithBot.coe_le_coe.mp hge) (not_le.mpr (WithTop.coe_lt_top _))
  rw [level_of_isFinite hfinite] at hle hge
  exact ⟨value (form x), ⟨hfinite, rfl⟩, by exact_mod_cast hle, by exact_mod_cast hge⟩

/-! ## Undefined results -/

theorem Result.not_isNaN {v : ℚ} (h : Result x v) : x.isNaN = false := by
  obtain ⟨r, -, hholds, hinfinite⟩ := h
  rcases lt_or_ge |r| (2 ^ (1024 : ℤ)) with hlt | hle
  · exact (hholds hlt).not_isNaN
  · exact not_isNaN_of_isInf (hinfinite hle)

/-- Taking a defined double from a number leaves a defined one. -/
theorem Holds.sub_not_isNaN {v : ℚ} (hx : Holds x v) (hy : y.isNaN = false) :
    (x - y).isNaN = false := by
  cases hfy : (form y).isFinite with
  | true => exact (hx.sub ⟨hfy, rfl⟩).not_isNaN
  | false =>
      obtain ⟨s, hs⟩ : ∃ s, form y = .infinity s := exists_infinity hy hfy
      have hsub : form (x - y) = UnpackedFloat.unpack .binary64
        (UnpackedFloat.pack .binary64 (UnpackedFloat.sub .binary64 (form x) (form y))) := rfl
      have hform : UnpackedFloat.sub .binary64 (form x) (form y) = .infinity (-s) := by
        rw [hs]
        obtain ⟨_, hx'⟩ | ⟨_, _, _, _, hx'⟩ := finite_cases hx.finite <;> rw [hx'] <;> rfl
      have hinfinite : (form (x - y)).isInf = true := by
        rw [hsub, hform, unpack_pack (show Canonical (.infinity (-s)) from trivial)]
        rfl
      exact not_isNaN_of_isInf hinfinite

end LinkTuner.Double

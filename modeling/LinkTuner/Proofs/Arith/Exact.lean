import Mathlib
import LinkTuner.Proofs.Arith.Greatest

/-!
# Calculating without rounding

Rewards and strategies are written over any numbers that can be calculated with. Over an ordered
field every operation means what its sign says, no number is undefined or infinite, and what takes
the place of the exponential need only be positive and strictly increasing.
-/

namespace LinkTuner

/-- Numbers that are calculated with exactly. -/
class ExactNumbers (K : Type) extends Field K, LinearOrder K, IsStrictOrderedRing K where
  exponential : K → K
  exponential_pos : ∀ x, 0 < exponential x
  exponential_strictMono : StrictMono exponential

noncomputable instance : ExactNumbers ℝ where
  exponential := Real.exp
  exponential_pos := Real.exp_pos
  exponential_strictMono := Real.exp_strictMono

namespace Arith

variable {K : Type} [ExactNumbers K]

instance : Arith K where
  lt x y := decide (x < y)
  le x y := decide (x ≤ y)
  totalLe x y := decide (x ≤ y)
  isUndefined _ := false
  isFinite _ := true
  exp := ExactNumbers.exponential

@[simp] theorem lt_iff {x y : K} : lt x y = true ↔ x < y := decide_eq_true_iff

@[simp] theorem le_iff {x y : K} : le x y = true ↔ x ≤ y := decide_eq_true_iff

@[simp] theorem totalLe_iff {x y : K} : totalLe x y = true ↔ x ≤ y := decide_eq_true_iff

@[simp] theorem not_isUndefined (x : K) : isUndefined x = false := rfl

@[simp] theorem isFinite_exact (x : K) : isFinite x = true := rfl

theorem exp_pos (x : K) : 0 < exp x := ExactNumbers.exponential_pos x

@[simp] theorem exp_le_exp {x y : K} : exp x ≤ exp y ↔ x ≤ y :=
  ExactNumbers.exponential_strictMono.le_iff_le

theorem greater_eq_max (x y : K) : greater x y = max x y := by
  unfold greater
  rcases lt_or_ge y x with h | h
  · simp [h, max_eq_left h.le]
  · simp [h, not_lt.mpr h]

/-- Bringing a number between bounds that are in order. -/
theorem clamp_eq {low high : K} (h : low ≤ high) (x : K) :
    clamp low high x = max low (min high x) := by
  unfold clamp
  simp only [lt_iff]
  split_ifs with hlow hhigh
  · rw [min_eq_right (hlow.le.trans h), max_eq_left hlow.le]
  · rw [min_eq_left hhigh.le, max_eq_right h]
  · rw [min_eq_right (not_lt.mp hhigh), max_eq_right (not_lt.mp hlow)]

instance : Comparing K where
  le_self _ := le_iff.mpr le_rfl
  defined_of_le _ := rfl
  defined_of_lt _ := rfl

instance : Ordered K where
  le_trans hxy hyz := le_iff.mpr ((le_iff.mp hxy).trans (le_iff.mp hyz))
  le_of_lt h := le_iff.mpr (lt_iff.mp h).le
  le_of_not_lt _ _ h := le_iff.mpr (not_lt.mp (of_decide_eq_false h))

theorem foldl_add (x : K) (xs : List K) : xs.foldl (· + ·) x = x + xs.sum := by
  induction xs generalizing x with
  | nil => simp
  | cons y xs ih => rw [List.foldl_cons, ih, List.sum_cons, add_assoc]

theorem sum_eq (xs : List K) : sum xs = xs.sum := by
  cases xs with
  | nil => rfl
  | cons x xs => exact foldl_add x xs

/-- Any two numbers can be compared, so some place holds the last of the greatest. -/
theorem exists_lastGreatest {xs : List K} (h : xs ≠ []) :
    ∃ i x, lastGreatest totalLe xs = some i ∧ IsLastGreatest totalLe xs i x := by
  refine isLastGreatest_of_lastGreatest ?_ ?_ h
  · intro x y z hxy hyz
    exact totalLe_iff.mpr ((totalLe_iff.mp hxy).trans (totalLe_iff.mp hyz))
  · intro x y
    exact (le_total x y).imp totalLe_iff.mpr totalLe_iff.mpr

end Arith

end LinkTuner

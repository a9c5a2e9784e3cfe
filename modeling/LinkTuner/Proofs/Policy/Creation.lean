import LinkTuner.Policy.Basic
import Mathlib.Tactic.SplitIfs

/-!
# New strategies

The parameters a strategy is built from, and the state it then begins in: all arms alike, and
nothing learnt.
-/

namespace LinkTuner

variable {α γ : Type} [Arith α]

open Arith

/-- The state in which exponential weights begin. -/
def Exponential.initial (arms : Nat) (gamma low high : α) (source : γ) : Exponential α γ :=
  ⟨gamma, low, high, List.replicate arms 0, List.replicate arms (1 / (arms : α)),
    List.replicate arms (1 / (arms : α)), 0, source⟩

theorem Exponential.create_eq_ok_iff {arms : Nat} {gamma : α} {low high : Option α} {source : γ}
    {p : Exponential α γ} :
    create arms gamma low high source = .ok p ↔
      arms ≠ 0 ∧ (lt 0 gamma && le gamma 1) = true ∧
        (isFinite (low.getD 0) && isFinite (high.getD 1)) = true ∧
        le (high.getD 1) (low.getD 0) = false ∧
        p = initial arms gamma (low.getD 0) (high.getD 1) source := by
  simp only [create]
  split_ifs with harms hgamma hbounds
  · simp [harms]
  · simp only [Bool.not_eq_true'] at hgamma
    simp [hgamma]
  · simp only [Bool.or_eq_true, Bool.not_eq_true', or_assoc] at hbounds
    rcases hbounds with h | h | h <;> simp [h]
  · simp only [Bool.or_eq_true, Bool.not_eq_true', not_or, Bool.not_eq_false] at hgamma hbounds
    obtain ⟨⟨hlow, hhigh⟩, hle⟩ := hbounds
    simp [harms, hgamma, hlow, hhigh, Bool.eq_false_iff.mpr hle, initial, eq_comm]

/-- The state in which estimates begin. -/
def Greedy.initial (arms : Nat) (epsilon : α) (step : Option α) (weights : Weights α)
    (source : γ) : Greedy α γ :=
  ⟨epsilon, step, weights, List.replicate arms ⟨0, 0, 0⟩, 0, source⟩

@[simp] theorem Greedy.arms_initial (arms : Nat) (epsilon : α) (step : Option α)
    (weights : Weights α) (source : γ) :
    (initial arms epsilon step weights source).arms = arms :=
  List.length_replicate

theorem Greedy.create_eq_ok_iff {arms : Nat} {epsilon : α} {step : Option α} {weights : Weights α}
    {source : γ} {p : Greedy α γ} :
    create arms epsilon step weights source = .ok p ↔
      arms ≠ 0 ∧ (le 0 epsilon && le epsilon 1) = true ∧
        (∀ s, step = some s → (lt 0 s && le s 1) = true) ∧
        p = initial arms epsilon step weights source := by
  simp only [create]
  split_ifs with harms hepsilon
  · simp [harms]
  · simp only [Bool.not_eq_true'] at hepsilon
    simp [hepsilon]
  · simp only [Bool.not_eq_true', Bool.not_eq_false] at hepsilon
    cases step with
    | none => simp [harms, hepsilon, initial, @eq_comm _ p]
    | some s =>
        cases hpos : lt 0 s <;> cases hone : le s 1 <;>
          simp [Option.filter, hpos, hone, harms, hepsilon, initial, @eq_comm _ p]

namespace Policy

/-- What a policy is built as, its number of arms apart. -/
theorem create_eq_ok_iff {arms : Nat} {strategy : Strategy α} {weights : Weights α} {source : γ}
    {p : Policy α γ} :
    create arms strategy weights source = .ok p ↔
      match strategy with
      | .exponential gamma low high =>
        ∃ q, Exponential.create arms gamma (low.orElse fun _ => some weights.range.1)
          (high.orElse fun _ => some weights.range.2) source = .ok q ∧ p = .exponential q
      | .greedy epsilon step =>
        ∃ q, Greedy.create arms epsilon step weights source = .ok q ∧ p = .greedy q := by
  unfold create
  by_cases harms : arms = 0
  · rw [if_pos harms]
    cases strategy <;>
      simp [Exponential.create_eq_ok_iff, Greedy.create_eq_ok_iff, harms]
  · rw [if_neg harms]
    cases strategy with
    | exponential gamma low high =>
        dsimp only
        cases h : Exponential.create arms gamma (low.orElse fun _ => some weights.range.1)
          (high.orElse fun _ => some weights.range.2) source <;> simp [Except.map, eq_comm]
    | greedy epsilon step =>
        dsimp only
        cases h : Greedy.create arms epsilon step weights source <;> simp [Except.map, eq_comm]

end Policy

end LinkTuner

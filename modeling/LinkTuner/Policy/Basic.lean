import LinkTuner.Policy.Exponential
import LinkTuner.Policy.Greedy

/-!
# Policies

A policy is one of the strategies at work. It is built over a number of arms from the parameters of
a strategy and the weights of the reward.
-/

namespace LinkTuner

/-- A strategy at work. -/
inductive Policy (α γ : Type) where
  | exponential (p : Exponential α γ)
  | greedy (p : Greedy α γ)
  deriving Repr

namespace Policy

variable {α γ : Type} [Arith α]

/-- The policy of a strategy. Reward bounds that are left out are those of the blend. -/
def create (arms : Nat) (strategy : Strategy α) (weights : Weights α) (source : γ) :
    Except (StrategyFault α) (Policy α γ) :=
  if arms = 0 then .error (.noArms "policy")
  else
    match strategy with
    | .exponential gamma low high =>
      (Exponential.create arms gamma (low.orElse fun _ => some weights.range.1)
        (high.orElse fun _ => some weights.range.2) source).map .exponential
    | .greedy epsilon step => (Greedy.create arms epsilon step weights source).map .greedy

/-- The name of the strategy. -/
def name : Policy α γ → String
  | .exponential _ => "exp3"
  | .greedy _ => "epsilon-greedy"

/-- The number of arms. -/
def arms : Policy α γ → Nat
  | .exponential p => p.arms
  | .greedy p => p.arms

/-- The next action. -/
def select [Random.Drawing α γ] : Policy α γ → Option (ActionId × Policy α γ)
  | .exponential p => p.select.map fun (a, p) => (a, .exponential p)
  | .greedy p => p.select.map fun (a, p) => (a, .greedy p)

/-- What is to be said about the next draw. -/
def selectNotes [Random.Drawing α γ] : Policy α γ → List (Note α)
  | .exponential p => p.selectNotes
  | .greedy _ => []

/-- The policy after a reward. -/
def update : Policy α γ → ActionId → Reward α → Except ActionFault (Policy α γ)
  | .exponential p, a, r => (p.update a r).map .exponential
  | .greedy p, a, r => (p.update a r).map .greedy

/-- What is to be said about an update. -/
def updateNotes : Policy α γ → ActionId → Reward α → List (Note α)
  | .exponential p, a, r => p.updateNotes a r
  | .greedy p, a, r => p.updateNotes a r

/-- What the policy has learnt. -/
def snapshot : Policy α γ → Snapshot α
  | .exponential p => p.snapshot
  | .greedy p => p.snapshot

instance [Random.Drawing Float γ] : Learner (Policy Float γ) where
  arms := arms
  select := select
  selectNotes := selectNotes
  update := update
  updateNotes := updateNotes
  snapshot := snapshot

end Policy

end LinkTuner

import LinkTuner.Policy.Learner
import LinkTuner.Policy.Strategy

/-!
# Exponential weights

Every arm has a weight, kept as its logarithm. An arm is drawn with the probability

`p i = (1 - gamma) * w i / sum w + gamma / arms`,

and a reward `r` of the unit interval for arm `a` raises its log-weight by
`gamma * (r / q a) / arms`, where `q` is the distribution of the latest draw. The weights are
shifted by the greatest one before they are exponentiated, so no run of rewards overflows.

An update reads `q` and the log-weight of its own arm only, and the probabilities are made anew from
the log-weights: between two draws, updates of different arms can change places.
-/

namespace LinkTuner

/-- The state of the strategy. -/
structure Exponential (α γ : Type) where
  gamma : α
  low : α
  high : α
  logWeights : List α
  probabilities : List α
  /-- The distribution of the latest draw. -/
  sampling : List α
  updates : Nat
  source : γ
  deriving Repr

namespace Exponential

variable {α γ : Type} [Arith α]
open Arith

/-- The strategy before any draw or update. Bounds that are left out are zero and one. -/
def create (arms : Nat) (gamma : α) (low high : Option α) (source : γ) :
    Except (StrategyFault α) (Exponential α γ) :=
  let low := low.getD 0
  let high := high.getD 1
  if arms = 0 then .error (.noArms "exp3")
  else if !(lt 0 gamma && le gamma 1) then .error (.gamma gamma)
  else if !isFinite low || !isFinite high || le high low then .error (.bounds low high)
  else
    let uniform := List.replicate arms (1 / (arms : α))
    .ok ⟨gamma, low, high, List.replicate arms 0, uniform, uniform, 0, source⟩

/-- The number of arms. -/
def arms (p : Exponential α γ) : Nat := p.logWeights.length

/-- The weights themselves. -/
def weights (p : Exponential α γ) : List α := p.logWeights.map exp

/-- The least probability of an arm. -/
def floor (p : Exponential α γ) : α := p.gamma / (p.arms : α)

/-- A reward brought back between the bounds; an undefined one counts as the lower bound. -/
def bounded (p : Exponential α γ) (value : α) : α :=
  if isUndefined value then p.low else clamp p.low p.high value

/-- A reward mapped onto the unit interval. -/
def normalize (p : Exponential α γ) (value : α) : α :=
  (p.bounded value - p.low) / (p.high - p.low)

/-- The weights relative to the greatest one. -/
def shifted (logWeights : List α) : List α :=
  let top := greatest logWeights
  logWeights.map fun w => exp (w - top)

/-- The distribution that log-weights stand for, mixed with the uniform one, before it is made to
sum to one again. -/
def mixed (gamma : α) (logWeights : List α) : List α :=
  let relative := shifted logWeights
  let total := sum relative
  let least := gamma / (logWeights.length : α)
  relative.map fun w => (1 - gamma) * w / total + least

/-- The distribution that log-weights stand for. -/
def distribution (gamma : α) (logWeights : List α) : List α :=
  let parts := mixed gamma logWeights
  let total := sum parts
  parts.map (· / total)

/-- How likely the arm was when an arm was last drawn, and no less than the least probability. -/
def chance (p : Exponential α γ) (arm : Nat) : α := greater (p.sampling.getD arm 0) p.floor

/-- The reward of an arm divided by how likely it was. -/
def estimate (p : Exponential α γ) (arm : Nat) (value : α) : α := p.normalize value / p.chance arm

/-- The log-weights after a reward. -/
def raised (p : Exponential α γ) (arm : Nat) (value : α) : List α :=
  p.logWeights.modify arm (· + p.gamma * p.estimate arm value / (p.arms : α))

/-- The strategy after a reward. -/
def update (p : Exponential α γ) (action : ActionId) (reward : Reward α) :
    Except ActionFault (Exponential α γ) := do
  let arm ← checkArm action p.arms
  if reward.neutral then return { p with updates := p.updates + 1 }
  else
    let logWeights := p.raised arm reward.value
    return { p with
      logWeights
      probabilities := distribution p.gamma logWeights
      updates := p.updates + 1 }

/-- What is to be said about an update. -/
def updateNotes (p : Exponential α γ) (action : ActionId) (reward : Reward α) : List (Note α) :=
  match p.update action reward with
  | .error _ => []
  | .ok after =>
    if reward.neutral then [.weightsKept action]
    else
      let value := reward.value
      let bounds :=
        if isUndefined value then [.undefinedReward value]
        else if lt value p.low || lt p.high value then
          [.rewardOutside value (p.bounded value) p.low p.high]
        else []
      bounds ++ [.weightRaised action (p.normalize value) (p.estimate action.toNat value)
        (after.probabilities.getD action.toNat 0)]

/-- The next arm, drawn by probability. Where the probabilities cannot be drawn from, every arm has
the same chance. -/
def select [Random.Drawing α γ] (p : Exponential α γ) : Option (ActionId × Exponential α γ) :=
  let drawn :=
    match Random.Drawing.weighted p.probabilities p.source with
    | .ok drawn => some drawn
    | .error _ => Random.Drawing.below α p.arms p.source
  drawn.map fun (arm, source) =>
    (.ofNat arm, { p with sampling := p.probabilities, source })

/-- What is to be said about the next draw. -/
def selectNotes [Random.Drawing α γ] (p : Exponential α γ) : List (Note α) :=
  match Random.Drawing.weighted p.probabilities p.source with
  | .ok _ => []
  | .error problem => [.weightless problem]

/-- What the strategy has learnt. -/
def snapshot (p : Exponential α γ) : Snapshot α :=
  ⟨"exp3", p.weights, p.probabilities, p.updates⟩

end Exponential

end LinkTuner

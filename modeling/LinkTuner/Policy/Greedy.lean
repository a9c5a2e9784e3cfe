import LinkTuner.Policy.Learner
import LinkTuner.Policy.Strategy

/-!
# The best estimate, with a share of uniform draws

Delivery and energy are estimated for each arm on their own and blended only when the best arm is
looked for. Arms that were never fed a telling reward come before all others.
-/

namespace LinkTuner

/-- What is known of one arm. -/
structure ArmEstimate (α : Type) where
  delivery : α
  energy : α
  /-- The number of telling rewards. -/
  count : Nat
  deriving Repr

/-- The state of the strategy. -/
structure Greedy (α γ : Type) where
  epsilon : α
  step : Option α
  weights : Weights α
  estimates : List (ArmEstimate α)
  updates : Nat
  source : γ
  deriving Repr

namespace Greedy

variable {α γ : Type} [Arith α]
open Arith

/-- The strategy before any draw or update. -/
def create (arms : Nat) (epsilon : α) (step : Option α) (weights : Weights α) (source : γ) :
    Except (StrategyFault α) (Greedy α γ) :=
  if arms = 0 then .error (.noArms "epsilon-greedy")
  else if !(le 0 epsilon && le epsilon 1) then .error (.epsilon epsilon)
  else
    match step.filter fun s => !(lt 0 s && le s 1) with
    | some s => .error (.step s)
    | none => .ok ⟨epsilon, step, weights, List.replicate arms ⟨0, 0, 0⟩, 0, source⟩

/-- The number of arms. -/
def arms (p : Greedy α γ) : Nat := p.estimates.length

/-- The blended estimate of each arm. -/
def values (p : Greedy α γ) : List α :=
  p.estimates.map fun e => p.weights.blend e.delivery e.energy

/-- The places of a list whose elements have a property. -/
def places {β : Type} (property : β → Bool) (bs : List β) : List Nat :=
  (bs.zipIdx.filter fun (b, _) => property b).map (·.2)

/-- The arms never fed a telling reward. -/
def untried (p : Greedy α γ) : List Nat := places (·.count == 0) p.estimates

/-- The arms whose value no other exceeds. -/
def leading (p : Greedy α γ) : List Nat :=
  let best := greatest p.values
  places (le best) p.values

/-- The arms from which a draw that does not explore chooses. -/
def candidates (p : Greedy α γ) : List Nat :=
  if p.untried.isEmpty then p.leading else p.untried

/-- The parts of a reward brought back into range; undefined parts count as zero. -/
def bounded (reward : Reward α) : α × α :=
  (if isUndefined reward.delivery then 0 else clamp 0 1 reward.delivery,
    if isUndefined reward.energy then 0 else greater reward.energy 0)

/-- What is known of an arm after one more telling reward. -/
def learn (step : Option α) (parts : α × α) (e : ArmEstimate α) : ArmEstimate α :=
  let count := e.count + 1
  let step := step.getD (1 / (count : α))
  ⟨e.delivery + step * (parts.1 - e.delivery), e.energy + step * (parts.2 - e.energy), count⟩

/-- The strategy after a reward. -/
def update (p : Greedy α γ) (action : ActionId) (reward : Reward α) :
    Except ActionFault (Greedy α γ) := do
  let arm ← checkArm action p.arms
  if reward.neutral then return { p with updates := p.updates + 1 }
  else return { p with
    estimates := p.estimates.modify arm (learn p.step (bounded reward))
    updates := p.updates + 1 }

/-- What is to be said about an update. -/
def updateNotes (p : Greedy α γ) (action : ActionId) (reward : Reward α) : List (Note α) :=
  match p.update action reward with
  | .error _ => []
  | .ok after =>
    if reward.neutral then [.estimatesKept action]
    else
      let (delivery, energy) := bounded reward
      let bounds :=
        if same delivery reward.delivery && same energy reward.energy then []
        else [.partsOutside reward.delivery reward.energy]
      let count := (after.estimates[action.toNat]?.map (·.count)).getD 0
      bounds ++ [.estimateMoved action delivery energy count]

/-- The next arm: with probability `epsilon` any arm, otherwise one of the candidates. -/
def select [Random.Drawing α γ] (p : Greedy α γ) : Option (ActionId × Greedy α γ) :=
  let (unit, source) : α × γ := Random.Drawing.unit p.source
  if lt unit p.epsilon then
    (Random.Drawing.below α p.arms source).map fun (arm, source) =>
      (.ofNat arm, { p with source })
  else do
    let candidates := p.candidates
    let (place, source) ← Random.Drawing.below α candidates.length source
    let arm ← candidates[place]?
    return (.ofNat arm, { p with source })

/-- What the strategy has learnt. -/
def snapshot (p : Greedy α γ) : Snapshot α :=
  let candidates := p.candidates
  let share := (1 - p.epsilon) / (candidates.length : α)
  let each := p.epsilon / (p.arms : α)
  ⟨"epsilon-greedy", p.values,
    (List.range p.arms).map fun arm => if candidates.contains arm then each + share else each,
    p.updates⟩

end Greedy

end LinkTuner

import LinkTuner.Event
import LinkTuner.Reward

/-!
# What every policy can do

A policy draws an action, is fed the reward for one, and shows what it has learnt. Drawing fails
only where there is nothing to draw from; feeding fails only for an action that does not exist.
-/

namespace LinkTuner

/-- What a policy has learnt, for diagnosis. -/
structure Snapshot (α : Type) where
  strategy : String
  /-- One weight or one estimated value for each arm. -/
  weights : List α
  probabilities : List α
  updates : Nat
  deriving Repr

/-- The arm that is most probable, of several the last. -/
def Snapshot.best {α : Type} [Arith α] (s : Snapshot α) : Option ActionId :=
  (lastGreatest Arith.totalLe s.probabilities).map .ofNat

/-- The action as a place among a number of arms. -/
def checkArm (action : ActionId) (arms : Nat) : Except ActionFault Nat :=
  if action.toNat < arms then .ok action.toNat else .error (.outside action arms)

/-- A policy over doubles that a controller can own. -/
class Learner (P : Type) where
  arms : P → Nat
  /-- The next action, and the policy after it was drawn. -/
  select : P → Option (ActionId × P)
  /-- What is to be said about the next draw. -/
  selectNotes : P → List (Note Float)
  /-- The policy after a reward for an action. -/
  update : P → ActionId → Reward Float → Except ActionFault P
  /-- What is to be said about such an update. -/
  updateNotes : P → ActionId → Reward Float → List (Note Float)
  snapshot : P → Snapshot Float

end LinkTuner

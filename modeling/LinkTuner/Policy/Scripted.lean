import LinkTuner.Policy.Learner

/-!
# A policy that follows a script

It answers a list of actions in turn, from the beginning again after the last, and remembers every
reward it accepts. It accepts none for the last of its arms, so that a refusal can be seen with an
action that the catalog knows.
-/

namespace LinkTuner

/-- The state of the script. -/
structure Scripted where
  arms : Nat
  actions : List ActionId
  /-- The number of actions answered so far. -/
  answered : Nat
  /-- The rewards accepted so far, the latest first. -/
  accepted : List (ActionId × Reward Float)
  deriving Repr

namespace Scripted

/-- The script before its first answer. -/
def create (arms : Nat) (actions : List ActionId) : Scripted := ⟨arms, actions, 0, []⟩

/-- The rewards accepted so far, the first one first. -/
def seen (s : Scripted) : List (ActionId × Reward Float) := s.accepted.reverse

/-- The next action of the script. -/
def select (s : Scripted) : Option (ActionId × Scripted) :=
  (s.actions[s.answered % s.actions.length]?).map fun a =>
    (a, { s with answered := s.answered + 1 })

/-- The script after a reward. -/
def update (s : Scripted) (action : ActionId) (reward : Reward Float) :
    Except ActionFault Scripted :=
  if action.toNat < s.arms - 1 then .ok { s with accepted := (action, reward) :: s.accepted }
  else .error (.outside action s.arms)

/-- What the script shows: weights of one and the same probability for each arm. -/
def snapshot (s : Scripted) : Snapshot Float :=
  ⟨"scripted", List.replicate s.arms 1.0, List.replicate s.arms (1.0 / Float.ofNat s.arms),
    s.accepted.length⟩

instance : Learner Scripted where
  arms := Scripted.arms
  select := select
  selectNotes _ := []
  update := update
  updateNotes _ _ _ := []
  snapshot := snapshot

end Scripted

end LinkTuner

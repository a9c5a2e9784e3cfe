import LinkTuner.Policy.Learner

/-!
# The owner of a policy

One owner holds the policy and carries out commands one after another. It stops when it is told to,
or when there is nothing to draw from; after that no command is answered any more. A command waits
in a queue that has only so much room, and whoever sends it waits no longer than a deadline.
-/

namespace LinkTuner

/-- A policy and whether it is still served. -/
structure Owner (P : Type) where
  policy : P
  serving : Bool
  deriving Repr

/-- The answer to one step. -/
structure Drawn where
  action : ActionId
  /-- Why the update was refused, if it was; the draw was made all the same. -/
  refused : Option ActionFault
  deriving DecidableEq, Repr

/-- How far a command comes before the deadline. -/
inductive Timing where
  /-- It is answered. -/
  | prompt
  /-- It is in the queue. The owner carries it out all the same, but the answer is lost. -/
  | late
  /-- It still waits for room in the queue, and the owner never hears of it. -/
  | crowded
  deriving DecidableEq, Repr

/-- Whether the command reaches the owner. -/
def Timing.arrives : Timing → Bool
  | .prompt | .late => true
  | .crowded => false

namespace Owner

variable {P : Type} [Learner P]

/-- The owner of a policy, ready for commands. -/
def create (policy : P) : Owner P := ⟨policy, true⟩

/-- A policy after an update that may be refused, and the refusal. -/
def feed (policy : P) : Option (ActionId × Reward Float) → Option ActionFault × P
  | none => (none, policy)
  | some (action, reward) =>
    match Learner.update policy action reward with
    | .ok policy => (none, policy)
    | .error fault => (some fault, policy)

/-- One update, if there is one, and then one draw. -/
def step (o : Owner P) (update : Option (ActionId × Reward Float)) : Option Drawn × Owner P :=
  if o.serving then
    let (refused, fed) := feed o.policy update
    match Learner.select fed with
    | some (action, policy) => (some ⟨action, refused⟩, ⟨policy, true⟩)
    | none => (none, ⟨fed, false⟩)
  else (none, o)

/-- What is to be said about such a step. -/
def stepNotes (o : Owner P) (update : Option (ActionId × Reward Float)) : List (Note Float) :=
  if o.serving then
    (match update with
      | none => []
      | some (action, reward) => Learner.updateNotes o.policy action reward) ++
    Learner.selectNotes (feed o.policy update).2
  else []

/-- The step for a command that may not arrive. -/
def receive (o : Owner P) (timing : Timing) (update : Option (ActionId × Reward Float)) :
    Option Drawn × Owner P :=
  if timing.arrives then o.step update else (none, o)

/-- What is to be said when such a command was sent. -/
def receiveNotes (o : Owner P) (timing : Timing) (update : Option (ActionId × Reward Float)) :
    List (Note Float) :=
  if timing.arrives then o.stepNotes update else []

/-- What the policy has learnt. -/
def snapshot (o : Owner P) : Option (Snapshot Float) :=
  if o.serving then some (Learner.snapshot o.policy) else none

/-- Telling the owner to stop; the answer shows the last state of the policy. -/
def shutdown (o : Owner P) : Option (Snapshot Float) × Owner P :=
  (o.snapshot, { o with serving := false })

end Owner

end LinkTuner

import LinkTuner.Proofs.Controller.Moments

/-!
# What the number of malformed messages is good for

Nothing a controller does depends on how many messages could not be used: every call does the same
and answers the same whatever that number is, and only the call that counts such a message changes
it. So those calls can be left out of a run, and nothing but the number is different.
-/

namespace LinkTuner

namespace Controller

variable {P : Type}

/-- The controller with a given number of malformed messages. -/
def withMalformed (c : Controller P) (n : Nat) : Controller P :=
  c.count fun m => { m with malformed := n }

theorem accept_withMalformed (c : Controller P) (n : Nat) (session : SessionId)
    (o : Wire.Observation) (now : Time) :
    (c.withMalformed n).accept session o now =
      { c.accept session o now with
        controller := (c.accept session o now).controller.withMalformed n } := by
  simp only [accept, withMalformed, count]
  cases c.registry.findOrCreate o.device session with
  | error fault => rfl
  | ok found =>
      dsimp only
      cases (reassign found.2 found.1 session).1.markPending o.device now with
      | error fault => rfl
      | ok g =>
          dsimp only
          cases g.resolve o.device with
          | error fault => rfl
          | ok last =>
              dsimp only [credit]
              cases reported c.catalog o with
              | none => rfl
              | some known => cases known <;> rfl

variable [Learner P]

omit [Learner P] in
theorem rewardOf_withMalformed (c : Controller P) (n : Nat) (a : Admission) :
    (c.withMalformed n).rewardOf a =
      { c.rewardOf a with controller := (c.rewardOf a).controller.withMalformed n } := by
  simp only [rewardOf, rewardFor, withMalformed, count]
  cases a.credited with
  | none => rfl
  | some action =>
      dsimp only
      cases c.weights.combine a.observation.outcome <;> rfl

theorem choose_withMalformed (c : Controller P) (n : Nat) (a : Admission)
    (reward : Option (Reward Float)) (timing : Timing) :
    (c.withMalformed n).choose a reward timing =
      { c.choose a reward timing with
        controller := (c.choose a reward timing).controller.withMalformed n } := by
  have howner : (c.withMalformed n).owner = c.owner := rfl
  simp only [choose, howner]
  cases c.owner.serving && Decidable.decide (timing ≠ .prompt) with
  | true => rfl
  | false =>
      simp only [Bool.false_eq_true, if_false]
      cases (c.owner.receive timing
        (a.credited.bind fun action => reward.map fun r => (action, r))).1 <;> rfl

theorem prepare_withMalformed (c : Controller P) (n : Nat) (a : Admission) (timing : Timing) :
    (c.withMalformed n).prepare a timing =
      ((c.prepare a timing).1, (c.prepare a timing).2.withMalformed n) := by
  simp only [prepare, rewardOf_withMalformed, choose_withMalformed]

omit [Learner P] in
theorem conclude_withMalformed (c : Controller P) (n : Nat) (choice : Choice) :
    (c.withMalformed n).conclude choice =
      ((c.conclude choice).1, (c.conclude choice).2.withMalformed n) := by
  simp only [conclude, answer, withMalformed, count]
  split <;> rfl

end Controller

namespace Call

/-- Whether a call counts a malformed message. -/
def isMalformed : Call → Bool
  | .malformed => true
  | _ => false

/-- The observation that a call hands over. -/
def observation? : Call → Option Wire.Observation
  | .accept _ o _ => some o
  | _ => none

end Call

namespace Desk

open Controller

variable {P : Type}

/-- The desk with a given number of malformed messages. -/
def withMalformed (d : Desk P) (n : Nat) : Desk P :=
  { d with controller := d.controller.withMalformed n }

variable [Learner P]

/-- Every call does the same whatever the number is, and adds as much to it. -/
theorem step_withMalformed (d : Desk P) (n : Nat) (call : Call) :
    (d.withMalformed n).step call =
      (d.step call).withMalformed (n + if call.isMalformed then 1 else 0) := by
  cases call with
  | accept session o now =>
      simp only [step, withMalformed, accept_withMalformed]
      cases (d.controller.accept session o now).result <;> rfl
  | prepare ticket timing =>
      simp only [step, withMalformed, prepare_withMalformed]
      cases d.waiting.find? ticket <;> rfl
  | conclude ticket =>
      simp only [step, withMalformed, conclude_withMalformed]
      cases d.chosen.find? ticket <;> rfl
  | _ => rfl

omit [Learner P] in
theorem sentBy_withMalformed (d : Desk P) (n : Nat) (call : Call) :
    (d.withMalformed n).sentBy call = d.sentBy call := by
  cases call with
  | conclude ticket => simp only [sentBy, decision, withMalformed, conclude_withMalformed]
  | _ => rfl

/-! ## What is counted -/

/-- The number of malformed messages is that of the calls which count one. -/
theorem malformed_step (d : Desk P) (call : Call) :
    (d.step call).controller.counters.malformed =
      d.controller.counters.malformed + if call.isMalformed then 1 else 0 := by
  have h := d.step_withMalformed d.controller.counters.malformed call
  rw [show d.withMalformed d.controller.counters.malformed = d from rfl] at h
  rw [h]
  rfl

/-- A desk that has counted more malformed messages than another one stays so, and otherwise alike. -/
theorem step_of_eq_withMalformed {d d' : Desk P} {k : Nat}
    (h : d = d'.withMalformed (d'.controller.counters.malformed + k)) (call : Call) :
    d.step call =
      (d'.step call).withMalformed ((d'.step call).controller.counters.malformed + k) := by
  rw [h, step_withMalformed, malformed_step, Nat.add_right_comm]

theorem malformed_run (d : Desk P) (calls : List Call) :
    (d.run calls).controller.counters.malformed =
      d.controller.counters.malformed + calls.countP Call.isMalformed := by
  induction calls generalizing d with
  | nil => rfl
  | cons call rest ih =>
      have hrun : d.run (call :: rest) = (d.step call).run rest := rfl
      rw [hrun, ih, malformed_step, List.countP_cons]
      omega

omit [Learner P] in
theorem observations_accept (c : Controller P) (session : SessionId) (o : Wire.Observation)
    (now : Time) :
    (c.accept session o now).controller.counters.observations = c.counters.observations + 1 := by
  simp only [accept, count]
  cases c.registry.findOrCreate o.device session with
  | error fault => rfl
  | ok found =>
      dsimp only
      cases (reassign found.2 found.1 session).1.markPending o.device now with
      | error fault => rfl
      | ok g =>
          dsimp only
          cases g.resolve o.device with
          | error fault => rfl
          | ok last =>
              dsimp only
              rw [credit_controller]
              rfl

/-- The number of observations is that of the calls which hand one over. -/
theorem observations_step (d : Desk P) (call : Call) :
    (d.step call).controller.counters.observations =
      d.controller.counters.observations + if call.observation?.isSome then 1 else 0 := by
  cases call with
  | accept session o now =>
      simp only [step, controller_enter]
      exact observations_accept _ _ _ _
  | prepare ticket timing =>
      simp only [step]
      cases d.waiting.find? ticket with
      | none => rfl
      | some a =>
          have hchosen := (prepared d.controller a timing).chosen
          dsimp only [advance]
          generalize (d.controller.prepare a timing).2 = c' at hchosen ⊢
          generalize ((d.controller.prepare a timing).1.action, _) = pair at hchosen
          cases hchosen <;> rfl
  | conclude ticket =>
      simp only [step]
      cases d.chosen.find? ticket with
      | none => rfl
      | some choice =>
          simp only [leave, conclude, answer]
          split <;> rfl
  | _ => rfl

theorem observations_run (d : Desk P) (calls : List Call) :
    (d.run calls).controller.counters.observations =
      d.controller.counters.observations + (calls.filterMap Call.observation?).length := by
  induction calls generalizing d with
  | nil => rfl
  | cons call rest ih =>
      have hrun : d.run (call :: rest) = (d.step call).run rest := rfl
      rw [hrun, ih, observations_step]
      cases hcall : call.observation? with
      | none => simp [hcall]
      | some o =>
          simp only [Option.isSome_some, if_true, List.filterMap_cons_some hcall, List.length_cons]
          omega

end Desk

end LinkTuner

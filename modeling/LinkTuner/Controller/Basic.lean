import LinkTuner.Config.Basic
import LinkTuner.Controller.Events
import LinkTuner.Controller.Owner
import LinkTuner.Controller.Statistics
import LinkTuner.Text.Span
import LinkTuner.Wire.Message

/-!
# The controller

An observation is answered in two steps. `accept` registers the device, opens its request and finds
the action to which the reported outcome is credited. `decide` feeds the policy, draws the next
action and closes the request; when the policy does not answer before the deadline, or not at all,
the fallback closes it. A command for which there is no room before the deadline never reaches the
policy, and its outcome is lost. Between the two steps anything else can happen, so a device may be
gone when its decision is ready.
-/

namespace LinkTuner

/-- An observation whose request is open. -/
structure Admission where
  observation : Wire.Observation
  /-- The action to which the outcome is credited. -/
  credited : Option ActionId
  /-- The action that is sent when the policy does not answer. -/
  fallback : ActionId
  deriving Repr

/-- All that a controller knows. -/
structure Controller (P : Type) where
  catalog : Catalog
  weights : Weights Float
  registry : Registry
  owner : Owner P
  counters : Counters
  history : History
  /-- How long a decision may take, in milliseconds. -/
  timeout : Nat
  deriving Repr

/-- The result of an operation, what it says in the log, and the controller afterwards. -/
structure Step (P β : Type) where
  result : β
  events : List Event
  controller : Controller P

/-- The error of a policy that misses its deadline. -/
def deadlineText (timeout : Nat) : String := "no decision within " ++ Text.spanText timeout

/-- The error of a policy that is not served any more. -/
def unavailableText : String := "policy engine unavailable"

namespace Controller

variable {P : Type} [Learner P]

/-- A controller for a given policy. -/
def ofPolicy (config : Config) (policy : P) : Except StartFault (Controller P) := do
  let catalog ← config.catalog
  if Learner.arms policy ≠ catalog.size then
    throw (.policyArms (Learner.arms policy) catalog.size)
  if config.maxDevices = 0 then throw .noDevices
  config.weights.check.mapError .weights
  return {
    catalog
    weights := config.weights
    registry := .create config.maxDevices.toNat
    owner := .create policy
    counters := .zero
    history := .create config.historyLength.toNat
    timeout := config.timeout.toNat }

/-- A controller for the policy of the configured strategy, and what it says in the log. Where no
seed is configured the policy draws from `entropy`; a run that is to be repeated leaves it out. -/
def ofConfig (config : Config) (entropy : Random.Gen := .ofSeed 0) :
    Except StartFault (Controller (Policy Float Random.Gen) × List Event) := do
  let catalog ← config.catalog
  let policy ← config.policy catalog (config.generator entropy)
  let controller ← ofPolicy config policy
  return (controller, [.ready policy.name catalog.size config.timeout.toNat])

/-- Counting something. -/
def count (c : Controller P) (f : Counters → Counters) : Controller P :=
  { c with counters := f c.counters }

/-- Letting a device report through the session of its latest observation. -/
def reassign (g : Registry) (r : Record) (session : SessionId) : Registry × List Event :=
  if r.session = session then (g, [])
  else (g.write r.id { r with session }, [.moved r.id r.session session])

/-- The action that an observation reports, if the catalog knows it. -/
def reported (catalog : Catalog) (o : Wire.Observation) : Option (Except ActionFault ActionId) :=
  o.previous.map catalog.check

/-- The admission of an observation whose device was sent `last`, with what is said about it. What
the device was sent goes before what it reports. -/
def credit (c : Controller P) (o : Wire.Observation) (last : Option ActionId) :
    Step P (Option Admission) :=
  let (known, refusals, c) := match reported c.catalog o with
    | none => (none, [], c)
    | some (.ok a) => (some a, [], c)
    | some (.error fault) =>
      (none, [Event.aboutDevice .warn "reported action ignored" o.device fault.message],
        c.count fun n => { n with invalidActions := n.invalidActions + 1 })
  let overruled := match last, known with
    | some assigned, some a => if assigned = a then [] else [Event.overruled o.device assigned a]
    | _, _ => []
  let credited := last.orElse fun _ => known
  ⟨some ⟨o, credited, credited.getD (.ofNat 0)⟩, refusals ++ overruled, c⟩

/-- Opening the request of an observation. Nothing is admitted when the registry is full or when a
request of the device is open already. -/
def accept (c : Controller P) (session : SessionId) (o : Wire.Observation) (now : Time) :
    Step P (Option Admission) :=
  let c := c.count fun n => { n with observations := n.observations + 1 }
  match c.registry.findOrCreate o.device session with
  | .error fault =>
    ⟨none, [.aboutDevice .warn "observation dropped" o.device fault.message],
      c.count fun n => { n with rejections := n.rejections + 1 }⟩
  | .ok (r, g) =>
    let (g, moves) := reassign g r session
    match g.markPending o.device now with
    | .error fault =>
      ⟨none, moves ++ [.aboutDevice .warn "duplicate observation discarded" o.device fault.message],
        { c with registry := g }.count fun n => { n with duplicates := n.duplicates + 1 }⟩
    | .ok g =>
      let c := { c with registry := g }
      match g.resolve o.device with
      | .error fault =>
        ⟨none, moves ++ [.aboutDevice .warn "observation discarded" o.device fault.message], c⟩
      | .ok last =>
        let step := c.credit o last
        { step with events := moves ++ step.events }

/-- The reward for an outcome, and whether it stands in for one that cannot be used. -/
def rewardFor (c : Controller P) (o : Wire.Observation) : Step P (Reward Float × Bool) :=
  match c.weights.combine o.outcome with
  | .ok reward => ⟨(reward, false), [], c⟩
  | .error fault =>
    ⟨(.uninformative, true), [.aboutDevice .warn "using neutral reward" o.device fault.message],
      c.count fun n => { n with invalidOutcomes := n.invalidOutcomes + 1 }⟩

/-- The reward that an admission brings, if its outcome is credited to an action. -/
def rewardOf (c : Controller P) (a : Admission) : Step P (Option (Reward Float × Bool)) :=
  match a.credited with
  | none => ⟨none, [], c⟩
  | some _ =>
    let step := c.rewardFor a.observation
    ⟨some step.result, step.events, step.controller⟩

/-- The action that answers an admission, drawn after the policy was fed or else the fallback. -/
def choose (c : Controller P) (a : Admission) (reward : Option (Reward Float)) (timing : Timing) :
    Step P (ActionId × Completion) :=
  let device := a.observation.device
  let update := a.credited.bind fun action => reward.map fun r => (action, r)
  let notes := (c.owner.receiveNotes timing update).map Note.event
  let (drawn, owner) := c.owner.receive timing update
  let missed (level : Level) (error : String) (before after : List Event) :=
    Step.mk (a.fallback, Completion.fallback)
      (before ++ Event.fellBack level device error a.fallback :: after)
      ({ c with owner }.count fun n => { n with timeouts := n.timeouts + 1 })
  if c.owner.serving && timing ≠ .prompt then missed .warn (deadlineText c.timeout) [] notes
  else match drawn with
    | none => missed .error unavailableText notes []
    | some ⟨action, refused⟩ =>
      let refusals := match refused with
        | none => []
        | some fault => [Event.aboutDevice .warn "update rejected" device fault.message]
      ⟨(action, .decided), notes ++ refusals,
        { c with owner }.count fun n => { n with
          decisions := n.decisions + 1
          invalidActions := n.invalidActions + refusals.length }⟩

/-- Closing the request of an admission, unless its device is gone. -/
def answer (c : Controller P) (a : Admission) (reward : Option (Reward Float × Bool))
    (action : ActionId) (how : Completion) : Step P (Option Wire.Decision) :=
  let o := a.observation
  match c.registry.complete o.device action (reward.map (·.1.value)) how with
  | .error fault =>
    ⟨none, [.aboutDevice .debug "device gone before its decision was ready" o.device fault.message],
      c⟩
  | .ok registry =>
    let history := match reward with
      | none => c.history
      | some (r, neutral) => c.history.push ⟨o.device, o.outcome, r, neutral⟩
    ⟨some ⟨o.device, action, o.sequence⟩,
      [.decided o.device action (c.catalog.describe action) (how = .fallback)],
      { c with registry, history }⟩

/-- Answering an admission. -/
def decide (c : Controller P) (a : Admission) (timing : Timing) : Step P (Option Wire.Decision) :=
  let rewarded := c.rewardOf a
  let chosen := rewarded.controller.choose a (rewarded.result.map (·.1)) timing
  let answered := chosen.controller.answer a rewarded.result chosen.result.1 chosen.result.2
  { answered with events := rewarded.events ++ chosen.events ++ answered.events }

/-- Answering an observation at once. -/
def handle (c : Controller P) (session : SessionId) (o : Wire.Observation) (now : Time)
    (timing : Timing) : Step P (Option Wire.Decision) :=
  let admitted := c.accept session o now
  match admitted.result with
  | none => ⟨none, admitted.events, admitted.controller⟩
  | some a =>
    let decided := admitted.controller.decide a timing
    { decided with events := admitted.events ++ decided.events }

/-- Forgetting the devices of a session. -/
def evict (c : Controller P) (session : SessionId) : Step P (List DeviceId) :=
  let (owned, registry) := c.registry.evictSession session
  ⟨owned, if owned.isEmpty then [] else [.evicted session owned.length], { c with registry }⟩

/-- A session begins. -/
def sessionOpened (c : Controller P) : Controller P :=
  c.count fun n => { n with
    sessionsOpened := n.sessionsOpened + 1
    sessionsActive := n.sessionsActive + 1 }

/-- A session ends, and its devices are forgotten. -/
def sessionClosed (c : Controller P) (session : SessionId) : Step P Unit :=
  let step := c.evict session
  ⟨(), step.events,
    step.controller.count fun n => { n with sessionsActive := n.sessionsActive - 1 }⟩

/-- A message could not be used. -/
def countMalformed (c : Controller P) : Controller P :=
  c.count fun n => { n with malformed := n.malformed + 1 }

/-- Stopping the policy; the answer shows its last state. -/
def shutdown (c : Controller P) : Option (Snapshot Float) × Controller P :=
  let (last, owner) := c.owner.shutdown
  (last, { c with owner })

end Controller

end LinkTuner

import LinkTuner.Proofs.Controller.Operations
import LinkTuner.Proofs.Registry.Keys

/-!
# Runs of a controller

A decision waits for the policy between its halves, and any other call can come in between. So a run
is made of halves. A desk hands out a ticket for each admission and keeps two maps of tickets: those
that wait for an action, and those whose action is chosen while the request is still open. The
policy carries out its steps in the order in which the halves ask for them.
-/

namespace LinkTuner

open Controller

/-- A call of a controller. -/
inductive Call where
  | accept (session : SessionId) (o : Wire.Observation) (now : Time)
  /-- The first half of the decision for a ticket. -/
  | prepare (ticket : Nat) (timing : Timing)
  /-- The second half of the decision for a ticket. -/
  | conclude (ticket : Nat)
  | opened
  | closed (session : SessionId)
  | evict (session : SessionId)
  | malformed
  | shutdown
  | read

/-- A controller with the admissions whose requests it has not yet closed. -/
structure Desk (P : Type) where
  controller : Controller P
  /-- The number of tickets handed out, and the next ticket. -/
  issued : Nat
  waiting : Index Nat Admission
  chosen : Index Nat Choice

namespace Desk

variable {P : Type}

/-- A controller to which nothing has happened yet. -/
def start (c : Controller P) : Desk P := ⟨c, 0, .empty, .empty⟩

/-- The desk when an observation was accepted; only an admission is given a ticket. -/
def enter (d : Desk P) (c : Controller P) : Option Admission → Desk P
  | none => { d with controller := c }
  | some a =>
    { d with controller := c, issued := d.issued + 1, waiting := d.waiting.insert d.issued a }

@[simp] theorem controller_enter (d : Desk P) (c : Controller P) (result : Option Admission) :
    (d.enter c result).controller = c := by
  cases result <;> rfl

/-- The desk when an action was chosen for a ticket. -/
def advance (d : Desk P) (c : Controller P) (ticket : Nat) (choice : Choice) : Desk P :=
  { d with
    controller := c
    waiting := d.waiting.erase ticket
    chosen := d.chosen.insert ticket choice }

/-- The desk when the decision for a ticket was concluded. -/
def leave (d : Desk P) (c : Controller P) (ticket : Nat) : Desk P :=
  { d with controller := c, chosen := d.chosen.erase ticket }

/-! ## Tickets -/

/-- The admission with a given ticket, until its decision is concluded. -/
def held (d : Desk P) (ticket : Nat) : Option Admission :=
  (d.waiting.find? ticket).orElse fun _ => (d.chosen.find? ticket).map (·.admission)

/-- A desk whose tickets are in order: each was handed out, and none has come in two places. -/
structure Sound (d : Desk P) : Prop where
  registry : d.controller.registry.Sound
  distinct : d.waiting.Distinct
  waiting_lt {ticket : Nat} {a : Admission} : d.waiting.find? ticket = some a → ticket < d.issued
  chosen_lt {ticket : Nat} {choice : Choice} :
    d.chosen.find? ticket = some choice → ticket < d.issued
  apart {ticket : Nat} {a : Admission} :
    d.waiting.find? ticket = some a → d.chosen.find? ticket = none

theorem sound_start {c : Controller P} (hg : c.registry.Sound) : (start c).Sound where
  registry := hg
  distinct := Index.distinct_empty
  waiting_lt h := by simp [start] at h
  chosen_lt h := by simp [start] at h
  apart h := by simp [start] at h

namespace Sound

variable {d : Desk P}

theorem waiting_issued (h : d.Sound) : d.waiting.find? d.issued = none := by
  cases hfind : d.waiting.find? d.issued with
  | none => rfl
  | some a =>
      have hlt := h.waiting_lt hfind
      omega

theorem chosen_issued (h : d.Sound) : d.chosen.find? d.issued = none := by
  cases hfind : d.chosen.find? d.issued with
  | none => rfl
  | some choice =>
      have hlt := h.chosen_lt hfind
      omega

/-- Only the controller changes. -/
theorem with_controller (h : d.Sound) {c : Controller P} (hg : c.registry.Sound) :
    Sound { d with controller := c } :=
  ⟨hg, h.distinct, h.waiting_lt, h.chosen_lt, h.apart⟩

theorem enter (h : d.Sound) {c : Controller P} (hg : c.registry.Sound)
    (result : Option Admission) : (d.enter c result).Sound := by
  cases result with
  | none => exact h.with_controller hg
  | some a =>
      constructor
      · exact hg
      · exact h.distinct.insert d.issued a
      · intro ticket b hfind
        by_cases heq : ticket = d.issued
        · subst heq
          exact Nat.lt_succ_self _
        · have hlt := h.waiting_lt (by rwa [Desk.enter, Index.find?_insert_of_ne _ a heq] at hfind)
          exact Nat.lt_succ_of_lt hlt
      · intro ticket choice hfind
        exact Nat.lt_succ_of_lt (h.chosen_lt hfind)
      · intro ticket b hfind
        by_cases heq : ticket = d.issued
        · subst heq
          exact h.chosen_issued
        · exact h.apart (by rwa [Desk.enter, Index.find?_insert_of_ne _ a heq] at hfind)

theorem advance (h : d.Sound) {c : Controller P} (hg : c.registry.Sound) {ticket : Nat}
    {a : Admission} (hticket : d.waiting.find? ticket = some a) (choice : Choice) :
    (d.advance c ticket choice).Sound := by
  constructor
  · exact hg
  · exact h.distinct.erase ticket
  · intro k b hfind
    have hne : k ≠ ticket := fun heq => by simp [Desk.advance, heq] at hfind
    exact h.waiting_lt (by rwa [Desk.advance, Index.find?_erase_of_ne _ hne] at hfind)
  · intro k choice' hfind
    by_cases heq : k = ticket
    · subst heq
      exact h.waiting_lt hticket
    · exact h.chosen_lt (by rwa [Desk.advance, Index.find?_insert_of_ne _ _ heq] at hfind)
  · intro k b hfind
    have hne : k ≠ ticket := fun heq => by simp [Desk.advance, heq] at hfind
    have hchosen := h.apart (by rwa [Desk.advance, Index.find?_erase_of_ne _ hne] at hfind)
    rwa [Desk.advance, Index.find?_insert_of_ne _ _ hne]

theorem leave (h : d.Sound) {c : Controller P} (hg : c.registry.Sound) (ticket : Nat) :
    (d.leave c ticket).Sound := by
  have hle {k : Nat} {choice : Choice}
      (hfind : (d.chosen.erase ticket).find? k = some choice) :
      d.chosen.find? k = some choice := by
    have hne : k ≠ ticket := fun heq => by simp [heq] at hfind
    rwa [Index.find?_erase_of_ne _ hne] at hfind
  constructor
  · exact hg
  · exact h.distinct
  · exact h.waiting_lt
  · intro k choice hfind
    exact h.chosen_lt (hle hfind)
  · intro k a hfind
    cases hchosen : (d.chosen.erase ticket).find? k with
    | none => exact hchosen
    | some choice =>
        have hnone := h.apart hfind
        rw [hle hchosen] at hnone
        cases hnone

end Sound

theorem held_of_chosen {d : Desk P} (h : d.Sound) {ticket : Nat} {choice : Choice}
    (hchosen : d.chosen.find? ticket = some choice) : d.held ticket = some choice.admission := by
  cases hwaiting : d.waiting.find? ticket with
  | none => simp [held, hwaiting, hchosen]
  | some a =>
      have hnone := h.apart hwaiting
      rw [hchosen] at hnone
      cases hnone

/-- A ticket that is held was handed out. -/
theorem Sound.lt_of_held {d : Desk P} (h : d.Sound) {ticket : Nat}
    (hheld : (d.held ticket).isSome = true) : ticket < d.issued := by
  cases hwaiting : d.waiting.find? ticket with
  | some a => exact h.waiting_lt hwaiting
  | none =>
      cases hchosen : d.chosen.find? ticket with
      | some choice => exact h.chosen_lt hchosen
      | none => simp [held, hwaiting, hchosen] at hheld

theorem held_enter_self (d : Desk P) (c : Controller P) (a : Admission) :
    (d.enter c (some a)).held d.issued = some a := by
  simp [held, enter]

theorem held_enter_of_ne {d : Desk P} {ticket : Nat} (hne : ticket ≠ d.issued) (c : Controller P)
    (result : Option Admission) : (d.enter c result).held ticket = d.held ticket := by
  cases result with
  | none => rfl
  | some a => simp [held, enter, Index.find?_insert_of_ne _ _ hne]

/-- Choosing an action moves a ticket but keeps its admission. -/
theorem held_advance {d : Desk P} {ticket : Nat} {a : Admission} {choice : Choice}
    (hfind : d.waiting.find? ticket = some a) (ha : choice.admission = a) (c : Controller P)
    (k : Nat) : (d.advance c ticket choice).held k = d.held k := by
  by_cases heq : k = ticket
  · subst heq
    simp [held, advance, hfind, ha]
  · simp [held, advance, Index.find?_erase_of_ne _ heq, Index.find?_insert_of_ne _ _ heq]

theorem held_leave_self {d : Desk P} (h : d.Sound) {ticket : Nat} {choice : Choice}
    (hchosen : d.chosen.find? ticket = some choice) (c : Controller P) :
    (d.leave c ticket).held ticket = none := by
  cases hwaiting : d.waiting.find? ticket with
  | none => simp [held, leave, hwaiting]
  | some a =>
      have hnone := h.apart hwaiting
      rw [hchosen] at hnone
      cases hnone

theorem held_leave_of_ne {d : Desk P} {ticket k : Nat} (hne : k ≠ ticket) (c : Controller P) :
    (d.leave c ticket).held k = d.held k := by
  simp [held, leave, Index.find?_erase_of_ne _ hne]

/-! ## Calls -/

variable [Learner P]

/-- The desk after one call. A half of a decision needs a ticket that has come so far. -/
def step (d : Desk P) : Call → Desk P
  | .accept session o now =>
    d.enter (d.controller.accept session o now).controller
      (d.controller.accept session o now).result
  | .prepare ticket timing =>
    match d.waiting.find? ticket with
    | none => d
    | some a =>
      d.advance (d.controller.prepare a timing).2 ticket (d.controller.prepare a timing).1
  | .conclude ticket =>
    match d.chosen.find? ticket with
    | none => d
    | some choice => d.leave (d.controller.conclude choice).2 ticket
  | .opened => { d with controller := d.controller.sessionOpened }
  | .closed session => { d with controller := (d.controller.sessionClosed session).controller }
  | .evict session => { d with controller := (d.controller.evict session).controller }
  | .malformed => { d with controller := d.controller.countMalformed }
  | .shutdown => { d with controller := d.controller.shutdown.2 }
  | .read => d

/-- The desk after many calls. -/
def run (d : Desk P) (calls : List Call) : Desk P := calls.foldl step d

/-- The answer to the second half of the decision for a ticket. -/
def decision (d : Desk P) (ticket : Nat) : Option Wire.Decision :=
  (d.chosen.find? ticket).bind fun choice => (d.controller.conclude choice).1

/-- The two halves without a call in between are one decision. -/
theorem step_prepare_conclude {d : Desk P} {ticket : Nat} {a : Admission}
    (h : d.waiting.find? ticket = some a) (timing : Timing) :
    (d.step (.prepare ticket timing)).decision ticket = (d.controller.decide a timing).result ∧
      ((d.step (.prepare ticket timing)).step (.conclude ticket)).controller =
        (d.controller.decide a timing).controller := by
  have hhalves := decide_eq_conclude d.controller a timing
  simp only [Prod.ext_iff] at hhalves
  have hstep : d.step (.prepare ticket timing) =
      d.advance (d.controller.prepare a timing).2 ticket (d.controller.prepare a timing).1 := by
    simp [step, h]
  rw [hstep, hhalves.1, hhalves.2]
  constructor
  · simp [decision, advance]
  · simp [step, advance, leave]

/-- What a call can do to a desk. -/
inductive Stepped (d : Desk P) : Call → Desk P → Prop
  | accepted {session : SessionId} {o : Wire.Observation} {now : Time} {result : Option Admission}
      {c : Controller P} (h : Accepted d.controller session o now result c) :
      Stepped d (.accept session o now) (d.enter c result)
  | prepared {ticket : Nat} {timing : Timing} {a : Admission} {choice : Choice} {c : Controller P}
      (hfind : d.waiting.find? ticket = some a) (h : Prepared d.controller a timing choice c) :
      Stepped d (.prepare ticket timing) (d.advance c ticket choice)
  | unprepared {ticket : Nat} {timing : Timing} (hfind : d.waiting.find? ticket = none) :
      Stepped d (.prepare ticket timing) d
  | concluded {ticket : Nat} {choice : Choice} {c : Controller P}
      (hfind : d.chosen.find? ticket = some choice)
      (h : Concluded d.controller choice (d.decision ticket) c) :
      Stepped d (.conclude ticket) (d.leave c ticket)
  | unconcluded {ticket : Nat} (hfind : d.chosen.find? ticket = none) :
      Stepped d (.conclude ticket) d
  | opened : Stepped d .opened { d with controller := d.controller.sessionOpened }
  | closed {session : SessionId} :
      Stepped d (.closed session)
        { d with controller := (d.controller.sessionClosed session).controller }
  | evicted {session : SessionId} :
      Stepped d (.evict session) { d with controller := (d.controller.evict session).controller }
  | malformed : Stepped d .malformed { d with controller := d.controller.countMalformed }
  | stopped : Stepped d .shutdown { d with controller := d.controller.shutdown.2 }
  | read : Stepped d .read d

theorem stepped {d : Desk P} (hg : d.controller.registry.Sound) (call : Call) :
    Stepped d call (d.step call) := by
  cases call with
  | accept session o now => exact .accepted (accepted hg session o now)
  | prepare ticket timing =>
      cases hfind : d.waiting.find? ticket with
      | none =>
          simp only [step, hfind]
          exact .unprepared hfind
      | some a =>
          simp only [step, hfind]
          exact .prepared hfind (prepared d.controller a timing)
  | conclude ticket =>
      cases hfind : d.chosen.find? ticket with
      | none =>
          simp only [step, hfind]
          exact .unconcluded hfind
      | some choice =>
          have hdecision : d.decision ticket = (d.controller.conclude choice).1 := by
            simp [decision, hfind]
          have h := concluded hg choice
          rw [← hdecision] at h
          simp only [step, hfind]
          exact .concluded hfind h
  | opened => exact .opened
  | closed session => exact .closed
  | evict session => exact .evicted
  | malformed => exact .malformed
  | shutdown => exact .stopped
  | read => exact .read

namespace Sound

variable {d : Desk P}

/-- One call keeps the tickets in order. -/
theorem of_stepped (h : d.Sound) {call : Call} {d' : Desk P} (hstep : Stepped d call d') :
    d'.Sound := by
  cases hstep with
  | accepted haccepted => exact h.enter (haccepted.sound h.registry) _
  | prepared hfind hprepared =>
      have hg := h.registry
      rw [← hprepared.registry_eq] at hg
      exact h.advance hg hfind _
  | unprepared hfind => exact h
  | concluded hfind hconcluded => exact h.leave (hconcluded.sound h.registry) _
  | unconcluded hfind => exact h
  | opened => exact h.with_controller h.registry
  | closed => exact h.with_controller (h.registry.evictSession _)
  | evicted => exact h.with_controller (h.registry.evictSession _)
  | malformed => exact h.with_controller h.registry
  | stopped => exact h.with_controller h.registry
  | read => exact h

theorem step (h : d.Sound) (call : Call) : (d.step call).Sound :=
  h.of_stepped (stepped h.registry call)

/-- A run keeps the tickets in order. -/
theorem run (h : d.Sound) (calls : List Call) : (d.run calls).Sound := by
  induction calls generalizing d with
  | nil => exact h
  | cons call calls ih => exact ih (h.step call)

end Sound

/-- The desk of a controller that was just built. -/
theorem sound_of_ofPolicy {config : Config} {policy : P} {c : Controller P}
    (h : ofPolicy config policy = .ok c) : (start c).Sound := by
  obtain ⟨hregistry, -⟩ := ofPolicy_ok h
  apply sound_start
  rw [hregistry]
  exact Registry.sound_create _

end Desk

end LinkTuner

import LinkTuner.Policy.Scripted
import LinkTuner.Proofs.Controller.Records

/-!
# No request stays open without its admission

An open request discards every further observation of its device, so one that nobody is going to
close would silence the device for good. Whenever a request is open, some admission of its device is
held: opening and admitting are one call, and concluding any decision for a device leaves the device
without an open request, whichever admission the decision was made for. Once every admission was
decided no request is open.
-/

namespace LinkTuner.Desk

open Controller

variable {P : Type} [Learner P] {d : Desk P}

/-- For every open request an admission of its device is held. -/
def Covered (d : Desk P) : Prop :=
  ∀ device, d.controller.Awaits device →
    ∃ ticket a, d.held ticket = some a ∧ a.observation.device = device

theorem covered_start {config : Config} {policy : P} {c : Controller P}
    (h : ofPolicy config policy = .ok c) : (start c).Covered := by
  rintro device ⟨r, since, hfind, -⟩
  rw [start, (ofPolicy_ok h).1] at hfind
  cases hfind

namespace Covered

/-- One call leaves no open request behind. -/
theorem step (h : d.Covered) (hd : d.Sound) (call : Call) : (d.step call).Covered := by
  rintro device ⟨r, since, hfind, hphase⟩
  have hrecorded := hd.recorded call hfind
  generalize hadmitted : d.admittedFor device call = admitted at hrecorded
  generalize d.sentTo device call = sent at hrecorded
  cases hrecorded with
  | kept hbefore hreport hanswer =>
      obtain ⟨ticket, a, hheld, hdevice⟩ := h device ⟨r, since, hbefore, hphase⟩
      obtain hstill | ⟨rfl, choice, hchosen, rfl⟩ := hd.held_step call hheld
      · exact ⟨ticket, a, hstill, hdevice⟩
      · rw [hanswer ticket choice rfl hchosen hdevice] at hphase
        cases hphase
  | @duplicate session o now since' r' hdevice hbefore hopen =>
      obtain ⟨ticket, a, hheld, hdevice⟩ := h device ⟨r', since', hbefore, hopen⟩
      obtain hstill | ⟨hcall, -⟩ := hd.held_step (.accept session o now) hheld
      · exact ⟨ticket, a, hstill, hdevice⟩
      · cases hcall
  | admitted hdevice hbefore hidle =>
      obtain ⟨hby, hfor⟩ := Option.filter_eq_some_iff.mp hadmitted
      exact ⟨_, _, held_of_admittedBy hby, by simpa using hfor⟩
  | answered hchosen hdevice hbefore hopen => cases hphase

theorem run (h : d.Covered) (hd : d.Sound) (calls : List Call) : (d.run calls).Covered := by
  induction calls generalizing d with
  | nil => exact h
  | cons call calls ih => exact ih (h.step hd call) (hd.step call)

omit [Learner P] in
/-- When no admission is held no request is open. -/
theorem pendingCount_eq_zero (h : d.Covered) (hd : d.Sound) (hnone : ∀ ticket, d.held ticket = none) :
    d.controller.registry.pendingCount = 0 := by
  apply hd.registry.pendingCount_eq_zero_iff.mpr
  intro device r hfind
  cases hphase : r.phase with
  | idle => rfl
  | awaiting since =>
      obtain ⟨ticket, a, hheld, -⟩ := h device ⟨r, since, hfind, hphase⟩
      rw [hnone ticket] at hheld
      cases hheld

end Covered

/-! ## Deciding what is held -/

/-- Choosing an action takes the ticket from those that wait, and it stays held. -/
theorem held_prepare (d : Desk P) (ticket : Nat) (timing : Timing) :
    (d.step (.prepare ticket timing)).waiting.find? ticket = none ∧
      ∀ k, (d.step (.prepare ticket timing)).held k = d.held k := by
  cases hfind : d.waiting.find? ticket with
  | none => simp [step, hfind]
  | some a =>
      have hadmission := (prepared d.controller a timing).admission
      simp only [step, hfind]
      refine ⟨?_, held_advance hfind hadmission _⟩
      simp [advance]

/-- Concluding a decision takes the ticket away. -/
theorem Sound.held_conclude (hd : d.Sound) {ticket : Nat} (hwaiting : d.waiting.find? ticket = none)
    (k : Nat) : (d.step (.conclude ticket)).held k = if k = ticket then none else d.held k := by
  cases hchosen : d.chosen.find? ticket with
  | none =>
      simp only [Desk.step, hchosen]
      split
      case isTrue heq => simp [held, heq, hwaiting, hchosen]
      case isFalse => rfl
  | some choice =>
      simp only [Desk.step, hchosen]
      split
      case isTrue heq =>
        subst heq
        exact held_leave_self hd hchosen _
      case isFalse hne => exact held_leave_of_ne hne _

/-- The calls that decide an admission. -/
def deciding (ticket : Nat) (timing : Timing) : List Call :=
  [.prepare ticket timing, .conclude ticket]

/-- A decision takes its own ticket and no other. -/
theorem Sound.held_deciding (hd : d.Sound) (ticket : Nat) (timing : Timing) (k : Nat) :
    (d.run (deciding ticket timing)).held k = if k = ticket then none else d.held k := by
  obtain ⟨hwaiting, hheld⟩ := held_prepare d ticket timing
  have hconclude := (hd.step (.prepare ticket timing)).held_conclude hwaiting k
  rw [hheld] at hconclude
  exact hconclude

/-- The calls that decide admissions one after another. -/
def decidingAll (tickets : List (Nat × Timing)) : List Call :=
  tickets.flatMap fun p => deciding p.1 p.2

theorem Sound.held_decidingAll (hd : d.Sound) (tickets : List (Nat × Timing)) (k : Nat) :
    (d.run (decidingAll tickets)).held k =
      if k ∈ tickets.map (·.1) then none else d.held k := by
  induction tickets generalizing d with
  | nil => rfl
  | cons p rest ih =>
      have hrun : d.run (decidingAll (p :: rest)) =
          (d.run (deciding p.1 p.2)).run (decidingAll rest) := by
        simp [Desk.run, decidingAll]
      rw [hrun, ih (hd.run _), hd.held_deciding]
      by_cases hk : k = p.1
      · simp [hk]
      · simp only [List.map_cons, List.mem_cons, hk, false_or, if_false]

/-- After every run an open request has an admission of its device that is still to be decided.
Nothing held means no open request, and nothing is held once everything that was held is decided,
in any order and at any speed. An observation whose request was opened is always admitted: the
action of the request can be found. -/
theorem no_request_stays_open {config : Config} {policy : P} {c : Controller P}
    (h : ofPolicy config policy = .ok c) (calls : List Call) :
    let d := (start c).run calls
    (∀ device, d.controller.Awaits device →
        ∃ ticket a, d.held ticket = some a ∧ a.observation.device = device) ∧
      ((∀ ticket, d.held ticket = none) → d.controller.registry.pendingCount = 0) ∧
      (∀ tickets : List (Nat × Timing),
        (∀ ticket, (d.held ticket).isSome = true → ticket ∈ tickets.map (·.1)) →
          (d.run (decidingAll tickets)).controller.registry.pendingCount = 0) ∧
      ∀ session (o : Wire.Observation) now r g g',
        d.controller.registry.findOrCreate o.device session = .ok (r, g) →
          (reassign g r session).1.markPending o.device now = .ok g' →
            ∃ last, g'.resolve o.device = .ok last := by
  intro d
  have hstart : (start c).Sound := sound_of_ofPolicy h
  have hd : d.Sound := hstart.run calls
  have hcovered : d.Covered := (covered_start h).run hstart calls
  refine ⟨hcovered, hcovered.pendingCount_eq_zero hd, ?_, ?_⟩
  · intro tickets hall
    apply (hcovered.run hd _).pendingCount_eq_zero (hd.run _)
    intro ticket
    rw [hd.held_decidingAll]
    split
    case isTrue => rfl
    case isFalse hnot => simpa using mt (hall ticket) hnot
  · intro session o now r g g' hfound hmarked
    exact resolve_of_accept hd.registry hfound hmarked

/-- A report of the only device, which waits for a decision while its session ends. -/
def awaitingRun : List Call :=
  [.opened, .accept (.uniform 1) ⟨⟨"meter"⟩, none, .missing, none⟩ 0, .closed (.uniform 1),
    .accept (.uniform 2) ⟨⟨"meter"⟩, none, .missing, none⟩ 9, .prepare 0 .late,
    .accept (.uniform 3) ⟨⟨"meter"⟩, none, .missing, none⟩ 12, .shutdown]

/-- One request is open in the end. It is not once both admissions are decided. -/
theorem no_request_stays_open_awaitingRun :
    ∃ c, ofPolicy .standard (Scripted.create 30 [.ofNat 4]) = .ok c ∧
      ((start c).run awaitingRun).controller.registry.pendingCount = 1 ∧
      (((start c).run awaitingRun).run
        (decidingAll [(1, .prompt), (0, .late)])).controller.registry.pendingCount = 0 := by
  have h : ofPolicy .standard (Scripted.create 30 [.ofNat 4]) = .ok _ := rfl
  refine ⟨_, h, rfl, ?_⟩
  apply (no_request_stays_open h awaitingRun).2.2.1
  intro ticket hheld
  have hlt : ticket < 2 := ((sound_of_ofPolicy h).run awaitingRun).lt_of_held hheld
  have hticket : ticket = 1 ∨ ticket = 0 := by omega
  simpa using hticket

end LinkTuner.Desk

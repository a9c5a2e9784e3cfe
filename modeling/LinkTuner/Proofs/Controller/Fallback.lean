import LinkTuner.Policy.Scripted
import LinkTuner.Proofs.Controller.Turns

/-!
# Answers without the policy

When the policy does not answer, a device is sent the action that it was sent last. Before its first
answer it is sent the action that it reports, if the catalog knows it, or else the first action. The
answer is recorded like any other one, and the policy is never served again once it is not. So from
then on a device is sent one action over and over, for as long as it is registered.
-/

namespace LinkTuner

namespace Controller

variable {P : Type} [Learner P] {c c' : Controller P} {session : SessionId} {o : Wire.Observation}
  {now : Time} {a : Admission} {timing : Timing} {choice : Choice}

/-! ## The answer to one observation -/

/-- The policy does not answer an admission in time, or not at all. -/
def Unanswered (c : Controller P) (a : Admission) (timing : Timing) : Prop :=
  timing ≠ .prompt ∨ (c.owner.step (fedWith c.weights a)).1 = none

theorem unanswered_of_not_serving (h : c.owner.serving = false) (a : Admission) (timing : Timing) :
    c.Unanswered a timing :=
  .inr (by rw [step_of_not_serving h])

/-- The record that an observation finds: the one of its device, or else a fresh one. -/
def recordFor (c : Controller P) (session : SessionId) (o : Wire.Observation) : Record :=
  (c.registry.find? o.device).getD (.fresh o.device session)

/-- What a device is sent without the policy: the action that it was sent last, or else the one it
reports, if the catalog knows it, or else the first one. -/
def standIn (catalog : Catalog) (o : Wire.Observation) (last : Option ActionId) : ActionId :=
  (last.orElse fun _ => o.previous.filter catalog.contains).getD (.ofNat 0)

theorem fallback_admission (catalog : Catalog) (o : Wire.Observation) (last : Option ActionId) :
    (admission catalog o last).fallback = standIn catalog o last := by
  rw [standIn, ← known_eq_filter]
  rfl

/-- What an observation leaves that is answered without the policy. The request is closed again, and
only the record of the device is touched. -/
structure FallsBack (c : Controller P) (session : SessionId) (o : Wire.Observation)
    (step : Step P (Option Wire.Decision)) : Prop where
  answer : step.result =
    some ⟨o.device, standIn c.catalog o (c.recordFor session o).action, o.sequence⟩
  record : step.controller.registry.find? o.device = some
    { c.recordFor session o with
      session
      phase := .idle
      action := some (standIn c.catalog o (c.recordFor session o).action)
      lastReward :=
        ((rewarded c.weights (admission c.catalog o (c.recordFor session o).action)).map
          (·.1.value)).orElse fun _ => (c.recordFor session o).lastReward
      fallbacks := (c.recordFor session o).fallbacks + 1 }
  others {device : DeviceId} : device ≠ o.device →
    step.controller.registry.find? device = c.registry.find? device
  timeouts : step.controller.counters.timeouts = c.counters.timeouts + 1
  decisions : step.controller.counters.decisions = c.counters.decisions

/-- What an admission leaves: the request of its device is open, and the policy was not asked. -/
structure Opens (c : Controller P) (session : SessionId) (o : Wire.Observation) (now : Time)
    (a : Admission) (c' : Controller P) : Prop where
  admission : a = admission c.catalog o (c.recordFor session o).action
  device : (c.recordFor session o).id = o.device
  replaced : c.registry.Replaced
    { c.recordFor session o with session, phase := .awaiting now } c'.registry
  owner : c'.owner = c.owner
  weights : c'.weights = c.weights
  timeouts : c'.counters.timeouts = c.counters.timeouts
  decisions : c'.counters.decisions = c.counters.decisions

omit [Learner P] in
theorem opens_of_accept (hg : c.registry.Sound)
    (hadmitted : (c.accept session o now).result = some a) :
    c.Opens session o now a (c.accept session o now).controller := by
  have haccepted := accepted hg session o now
  generalize (c.accept session o now).result = result at hadmitted haccepted
  generalize (c.accept session o now).controller = c' at haccepted
  cases haccepted with
  | full hnew hfull => cases hadmitted
  | duplicate hid hfind hphase hnext => cases hadmitted
  | @admitted r g hid hfind hphase hnext =>
      cases hadmitted
      have hrecord : c.recordFor session o = r := by
        obtain hfind | ⟨hnone, -, hfresh⟩ := hfind
        · rw [recordFor, hfind, Option.getD_some]
        · rw [recordFor, hnone, hfresh, Option.getD_none]
      subst hrecord
      exact ⟨rfl, hid, hnext, rfl, rfl, rfl, rfl⟩

/-- Without an answer of the policy the fallback is chosen, and counted as such. -/
theorem Prepared.of_unanswered (h : Prepared c a timing choice c')
    (hsilent : c.Unanswered a timing) :
    choice.action = a.fallback ∧ choice.how = .fallback ∧
      c'.counters.timeouts = c.counters.timeouts + 1 ∧
      c'.counters.decisions = c.counters.decisions := by
  have hchosen := h.chosen
  generalize hpair : (choice.action, choice.how) = pair at hchosen
  obtain ⟨haction, hhow⟩ := Prod.ext_iff.mp hpair
  cases hchosen with
  | fallback hmissed => exact ⟨haction, hhow, rfl, rfl⟩
  | drawn hprompt hdrawn =>
      obtain hmissed | hnone := hsilent
      · exact absurd hprompt hmissed
      · cases hnone.symm.trans hdrawn

/-- An observation that is admitted is answered by the two halves of its decision. -/
theorem concluded_of_handle (hg : c.registry.Sound)
    (hadmitted : (c.accept session o now).result = some a) (timing : Timing) :
    ∃ choice ready, Prepared (c.accept session o now).controller a timing choice ready ∧
      Concluded ready choice (c.handle session o now timing).result
        (c.handle session o now timing).controller := by
  have hprepared := prepared (c.accept session o now).controller a timing
  have hready := (opens_of_accept hg hadmitted).replaced.sound
  rw [← hprepared.registry_eq] at hready
  refine ⟨_, _, hprepared, ?_⟩
  have hconcluded := concluded hready ((c.accept session o now).controller.prepare a timing).1
  rw [← decide_eq_conclude] at hconcluded
  simpa only [handle, hadmitted] using hconcluded

/-- An observation that is admitted is answered, also when the policy does not answer. -/
theorem fallsBack_of_unanswered (hg : c.registry.Sound)
    (hadmitted : (c.accept session o now).result = some a) (hsilent : c.Unanswered a timing) :
    c.FallsBack session o (c.handle session o now timing) := by
  have hopens := opens_of_accept hg hadmitted
  obtain ⟨choice, ready, hprepared, hconcluded⟩ := concluded_of_handle hg hadmitted timing
  generalize (c.accept session o now).controller = opened at hopens hprepared
  have hunanswered : opened.Unanswered a timing := by
    rw [Unanswered, hopens.owner, hopens.weights]
    exact hsilent
  obtain ⟨haction, hhow, htimeouts, hdecisions⟩ := hprepared.of_unanswered hunanswered
  have hreplaced := hopens.replaced
  rw [← hprepared.registry_eq] at hreplaced
  have hfound : ready.registry.find? o.device = some _ := hopens.device ▸ hreplaced.find?_self
  have hobservation : choice.admission.observation = o := by
    rw [hprepared.admission, hopens.admission]
    rfl
  have hstandIn : choice.action = standIn c.catalog o (c.recordFor session o).action := by
    rw [haction, hopens.admission, fallback_admission]
  have hreward : choice.reward =
      rewarded c.weights (admission c.catalog o (c.recordFor session o).action) := by
    rw [hprepared.reward, hopens.weights, hopens.admission]
  generalize c.handle session o now timing = step at hconcluded ⊢
  obtain ⟨result, events, after⟩ := step
  simp only at hconcluded
  cases hconcluded with
  | gone hidle =>
      rw [hobservation] at hidle
      cases hidle _ hfound
  | @closed r since g hid hfind hphase hnext =>
      rw [hobservation] at hid hfind
      cases hfound.symm.trans hfind
      rw [hstandIn, hhow, hreward] at hnext
      constructor
      · simp only [hobservation, hstandIn]
      · exact hopens.device ▸ hnext.find?_self
      · intro device hne
        have hother : device ≠ (c.recordFor session o).id := hopens.device ▸ hne
        exact (hnext.find?_of_ne hother).trans (hreplaced.find?_of_ne hother)
      · exact htimeouts.trans (congrArg (· + 1) hopens.timeouts)
      · exact hdecisions.trans hopens.decisions

/-! ## One observation after another -/

/-- The record of a device shows an action. -/
def Shows (c : Controller P) (device : DeviceId) (action : ActionId) : Prop :=
  ∃ r, c.registry.find? device = some r ∧ r.action = some action

/-- An observation on its way to a controller, with what its handling depends on. -/
structure Report where
  session : SessionId
  observation : Wire.Observation
  now : Time
  timing : Timing

/-- The answers to reports that are handled one after another. -/
def answersTo (c : Controller P) : List Report → List Wire.Decision
  | [] => []
  | report :: reports =>
    let step := c.handle report.session report.observation report.now report.timing
    step.result.toList ++ step.controller.answersTo reports

variable {device : DeviceId} {action : ActionId} {step : Step P (Option Wire.Decision)}

omit [Learner P] in
/-- What is not admitted leaves in the records what they show. -/
theorem Shows.accept (h : c.Shows device action) (hg : c.registry.Sound)
    (hrefused : (c.accept session o now).result = none) :
    (c.accept session o now).controller.Shows device action := by
  have haccepted := accepted hg session o now
  generalize (c.accept session o now).result = result at hrefused haccepted
  generalize (c.accept session o now).controller = c' at haccepted
  cases haccepted with
  | full hnew hfull => exact h
  | admitted hid hfind hphase hnext => cases hrefused
  | @duplicate found since g hid hfind hphase hnext =>
      obtain ⟨r, hr, haction⟩ := h
      by_cases hdevice : device = o.device
      · subst hdevice
        cases hr.symm.trans hfind
        exact ⟨{ found with session }, hid ▸ hnext.find?_self, haction⟩
      · exact ⟨r, (hnext.find?_of_ne (hid ▸ hdevice)).trans hr, haction⟩

omit [Learner P] in
/-- The device that is answered without the policy is shown with its answer. -/
theorem FallsBack.shows (h : c.FallsBack session o step) {answer : Wire.Decision}
    (hanswer : step.result = some answer) : step.controller.Shows answer.device answer.action := by
  cases h.answer.symm.trans hanswer
  exact ⟨_, h.record, rfl⟩

omit [Learner P] in
/-- What a record shows is what its device is sent without the policy, and what stays in it. -/
theorem FallsBack.repeats (h : c.FallsBack session o step) (hshows : c.Shows device action) :
    step.controller.Shows device action ∧
      ∀ answer, step.result = some answer → answer.device = device → answer.action = action := by
  obtain ⟨r, hr, haction⟩ := hshows
  by_cases hdevice : device = o.device
  · subst hdevice
    have hstandIn : standIn c.catalog o (c.recordFor session o).action = action := by
      rw [recordFor, hr, Option.getD_some, haction]
      rfl
    refine ⟨⟨_, h.record, congrArg some hstandIn⟩, ?_⟩
    rintro answer hanswer -
    cases h.answer.symm.trans hanswer
    exact hstandIn
  · refine ⟨⟨r, (h.others hdevice).trans hr, haction⟩, ?_⟩
    rintro answer hanswer rfl
    cases h.answer.symm.trans hanswer
    exact absurd rfl hdevice

/-- Without the policy a report is not answered, or by what its record shows from then on. -/
theorem handle_of_not_serving (hg : c.registry.Sound) (hgone : c.owner.serving = false)
    (session : SessionId) (o : Wire.Observation) (now : Time) (timing : Timing) :
    (∀ answer, (c.handle session o now timing).result = some answer →
      (c.handle session o now timing).controller.Shows answer.device answer.action) ∧
    ∀ device action, c.Shows device action →
      (c.handle session o now timing).controller.Shows device action ∧
        ∀ answer, (c.handle session o now timing).result = some answer →
          answer.device = device → answer.action = action := by
  cases hresult : (c.accept session o now).result with
  | none =>
      have hhandle : c.handle session o now timing =
          ⟨none, (c.accept session o now).events, (c.accept session o now).controller⟩ := by
        simp only [handle, hresult]
      rw [hhandle]
      exact ⟨nofun, fun device action hshows => ⟨hshows.accept hg hresult, nofun⟩⟩
  | some a =>
      have hfalls := fallsBack_of_unanswered hg hresult (unanswered_of_not_serving hgone a timing)
      exact ⟨fun answer => hfalls.shows, fun device action => hfalls.repeats⟩

end Controller

/-! ## All answers from then on -/

namespace Desk

open Controller

variable {P : Type} [Learner P] {d : Desk P} {device : DeviceId} {action : ActionId} {first : Nat}
  {call : Call} {calls : List Call} {n : Nat}

/-- A policy that is not served is never served again. -/
theorem Stepped.not_serving {d' : Desk P} (h : Stepped d call d')
    (hgone : d.controller.owner.serving = false) : d'.controller.owner.serving = false := by
  obtain howner | ⟨-, howner⟩ | ⟨ticket, timing, a, -, -, hserving, -⟩ := h.owner_cases
  · rwa [howner]
  · rw [howner]
  · cases hgone.symm.trans hserving

theorem Sound.not_serving_after (hd : d.Sound) (hgone : d.controller.owner.serving = false)
    (calls : List Call) (n : Nat) : (d.after calls n).controller.owner.serving = false :=
  after_induction hgone (fun n call _ ih => (stepped (hd.after n).registry call).not_serving ih)
    (fun _ _ ih => ih) n

/-- One action for a device: its record shows it, and so do the answers that are on their way to the
admissions with tickets from `first` on. -/
structure Repeats (d : Desk P) (device : DeviceId) (action : ActionId) (first : Nat) : Prop where
  record {r : Record} : d.record? device = some r → r.action = some action
  waiting {ticket : Nat} {a : Admission} : first ≤ ticket → d.waiting.find? ticket = some a →
    a.observation.device = device → a.fallback = action
  chosen {ticket : Nat} {choice : Choice} : first ≤ ticket → d.chosen.find? ticket = some choice →
    choice.admission.observation.device = device → choice.action = action

omit [Learner P] in
/-- Where no ticket is counted yet, only the record has to show the action. -/
theorem Sound.repeats_issued (hd : d.Sound) {r : Record} (hfind : d.record? device = some r)
    (haction : r.action = some action) : d.Repeats device action d.issued where
  record hfind' := by
    cases hfind.symm.trans hfind'
    exact haction
  waiting hle hfind' _ := absurd (hd.waiting_lt hfind') (Nat.not_lt.mpr hle)
  chosen hle hfind' _ := absurd (hd.chosen_lt hfind') (Nat.not_lt.mpr hle)

namespace Repeats

/-- The record of a registered device shows the action again if the answer that is sent by the call,
if any, has a ticket from `first` on. -/
theorem record_step (h : d.Repeats device action first) (hd : d.Sound)
    (hknows : d.controller.Knows device)
    (hsent : ∀ p, d.sentTo device call = some p → first ≤ p.1) {r : Record}
    (hfind : (d.step call).record? device = some r) : r.action = some action := by
  have hrecorded := hd.recorded call hfind
  generalize d.admittedFor device call = admitted at hrecorded
  generalize d.sentTo device call = sent at hrecorded hsent
  cases hrecorded with
  | kept hbefore hreport hanswer => exact h.record hbefore
  | duplicate hdevice hbefore hphase =>
      have hshown := h.record hbefore
      exact hshown
  | admitted hdevice hbefore hphase =>
      obtain hbefore | ⟨hnone, -⟩ := hbefore
      · have hshown := h.record hbefore
        exact hshown
      · have hnone : d.controller.registry.find? device = none := hnone
        simp [Knows, hnone] at hknows
  | answered hchosen hdevice hbefore hphase =>
      exact congrArg some (h.chosen (hsent _ rfl) hchosen hdevice)

/-- A device whose record shows the action is admitted with it as the fallback. -/
theorem fallback_of_admittedBy (h : d.Repeats device action first) (hd : d.Sound)
    (hknows : d.controller.Knows device) {ticket : Nat} {a : Admission}
    (hadmitted : d.admittedBy call = some (ticket, a)) (hdevice : a.observation.device = device) :
    a.fallback = action := by
  obtain ⟨session, o, now, before, -, -, rfl, -, hbefore, -⟩ := hd.of_admittedBy hadmitted
  have hdevice : o.device = device := hdevice
  subst hdevice
  obtain hbefore | ⟨hnone, -⟩ := hbefore
  · rw [fallback_admission, h.record hbefore]
    rfl
  · have hnone : d.controller.registry.find? o.device = none := hnone
    simp [Knows, hnone] at hknows

/-- Without the policy one call keeps repeating the action to a registered device. -/
theorem step (h : d.Repeats device action first) (hd : d.Sound)
    (hgone : d.controller.owner.serving = false) (hknows : d.controller.Knows device)
    (hsent : ∀ p, d.sentTo device call = some p → first ≤ p.1) :
    (d.step call).Repeats device action first := by
  have hstep := stepped hd.registry call
  constructor
  · exact h.record_step hd hknows hsent
  · intro ticket a hle hwaiting hdevice
    obtain hbefore | rfl := hstep.waiting_cases hwaiting
    · exact h.waiting hle hbefore hdevice
    · have hheld : (d.step call).held d.issued = some a := by simp [held, hwaiting]
      obtain hbefore | hadmitted := hd.held_before call hheld
      · exact absurd (hd.lt_of_held (Option.isSome_of_mem hbefore)) (Nat.lt_irrefl _)
      · exact h.fallback_of_admittedBy hd hknows hadmitted hdevice
  · intro ticket choice hle hchosen hdevice
    obtain hbefore | ⟨timing, a, c, -, hwaiting, hprepared⟩ := hstep.chosen_cases hchosen
    · exact h.chosen hle hbefore hdevice
    · rw [(hprepared.of_unanswered (unanswered_of_not_serving hgone a timing)).1]
      exact h.waiting hle hwaiting (hprepared.admission ▸ hdevice)

theorem sentTo (h : d.Repeats device action first) (hd : d.Sound) {p : Nat × Wire.Decision}
    (hsent : d.sentTo device call = some p) (hle : first ≤ p.1) : p.2.action = action := by
  obtain ⟨ticket, answer⟩ := p
  obtain ⟨hby, hdevice⟩ := Option.filter_eq_some_iff.mp hsent
  obtain ⟨choice, -, -, -, hchosen, rfl, -⟩ := hd.of_sentBy hby
  exact h.chosen hle hchosen (by simpa using hdevice)

end Repeats

/-- From place `s` on and up to place `n` the device stays registered, and every answer that it is
sent is to an observation that was admitted since. -/
structure Steady (d : Desk P) (calls : List Call) (device : DeviceId) (s n : Nat) : Prop where
  stays : d.Stays calls device s n
  recent : ∀ p ∈ d.answersOf calls device s n, (d.after calls s).issued ≤ p.1

theorem Steady.of_succ {s : Nat} (h : d.Steady calls device s (n + 1)) (hle : s ≤ n)
    (hcall : calls[n]? = some call) : d.Steady calls device s n where
  stays m hm hle := h.stays m hm (Nat.le_succ_of_le hle)
  recent p hp := h.recent p (by
    rw [answersOf_succ hle hcall]
    exact List.mem_append_left _ hp)

/-- All that a device is sent from a moment on carries the action that its record shows there. -/
theorem Sound.repeats_after (hd : d.Sound) (hgone : d.controller.owner.serving = false) {s : Nat}
    (hle : s ≤ n) {r : Record} (hfind : (d.after calls s).record? device = some r)
    (haction : r.action = some action) (hsteady : d.Steady calls device s n) :
    (d.after calls n).Repeats device action (d.after calls s).issued ∧
      ∀ p ∈ d.answersOf calls device s n, p.2.action = action := by
  revert hsteady
  refine after_induction_from ?start ?step ?rest n hle
  case start =>
    intro _
    refine ⟨(hd.after s).repeats_issued hfind haction, ?_⟩
    simp [answersOf, answers]
  case step =>
    intro n call hle hcall ih hsteady
    obtain ⟨hrepeats, hanswers⟩ := ih (hsteady.of_succ hle hcall)
    have hrecent := hsteady.recent
    rw [answersOf_succ hle hcall] at hrecent ⊢
    have hsent (p) (hp : (d.after calls n).sentTo device call = some p) :
        (d.after calls s).issued ≤ p.1 :=
      hrecent p (List.mem_append_right _ (by simp [hp]))
    have hknows : (d.after calls n).controller.Knows device := by
      obtain rfl | hlt := Nat.eq_or_lt_of_le hle
      · exact Option.isSome_of_mem hfind
      · exact hsteady.stays n hlt (Nat.le_succ n)
    refine ⟨hrepeats.step (hd.after n) (hd.not_serving_after hgone calls n) hknows hsent, ?_⟩
    intro p hp
    obtain hp | hp := List.mem_append.mp hp
    · exact hanswers p hp
    · have hp := Option.mem_toList.mp hp
      exact hrepeats.sentTo (hd.after n) hp (hsent p hp)
  case rest =>
    intro n hle hcall ih hsteady
    have hsame : d.answersOf calls device s (n + 1) = d.answersOf calls device s n := by
      simp [answersOf, answers_succ hle, sentAt, hcall]
    rw [hsame]
    refine ih ⟨fun m hm hle => hsteady.stays m hm (Nat.le_succ_of_le hle), ?_⟩
    exact hsame ▸ hsteady.recent

/-- Right after an answer the record of its device shows the action that was sent. -/
theorem Sound.record_of_sentAt (hd : d.Sound) {k ticket : Nat} {answer : Wire.Decision}
    (h : d.sentAt calls k = some (ticket, answer)) :
    ∃ r, (d.after calls (k + 1)).record? answer.device = some r ∧
      r.action = some answer.action := by
  obtain ⟨call, hcall, hby⟩ := Option.bind_eq_some_iff.mp h
  obtain ⟨choice, before, since, -, -, rfl, -, -, hfind⟩ := (hd.after k).of_sentBy hby
  rw [after_succ hcall]
  exact ⟨_, hfind, rfl⟩

/-- The calls that handle one observation at once. Where nothing is admitted the next ticket is not
handed out, and no half of a decision has anything to do. -/
def handling (d : Desk P) (session : SessionId) (o : Wire.Observation) (now : Time)
    (timing : Timing) : List Call :=
  [.accept session o now, .prepare d.issued timing, .conclude d.issued]

theorem Sound.controller_run_handling (hd : d.Sound) (session : SessionId) (o : Wire.Observation)
    (now : Time) (timing : Timing) :
    (d.run (d.handling session o now timing)).controller =
      (d.controller.handle session o now timing).controller := by
  change (((d.step (.accept session o now)).step (.prepare d.issued timing)).step
    (.conclude d.issued)).controller = _
  have haccept : d.step (.accept session o now) =
      d.enter (d.controller.accept session o now).controller
        (d.controller.accept session o now).result := rfl
  cases hresult : (d.controller.accept session o now).result with
  | none =>
      rw [haccept, hresult]
      simp [Desk.enter, Desk.step, hd.waiting_issued, hd.chosen_issued, handle, hresult]
  | some a =>
      have hwaiting : (d.step (.accept session o now)).waiting.find? d.issued = some a := by
        simp [haccept, hresult, Desk.enter]
      rw [(step_prepare_conclude hwaiting timing).2, haccept, controller_enter]
      simp only [handle, hresult]

/-- Handling an observation keeps what holds of every run. -/
theorem Sound.not_serving_handle (hd : d.Sound) (hgone : d.controller.owner.serving = false)
    (session : SessionId) (o : Wire.Observation) (now : Time) (timing : Timing) :
    ∃ d' : Desk P, d'.Sound ∧ d'.controller.owner.serving = false ∧
      d'.controller = (d.controller.handle session o now timing).controller := by
  refine ⟨d.run (d.handling session o now timing), hd.run _, ?_, ?_⟩
  · have hafter := hd.not_serving_after hgone (d.handling session o now timing) 3
    exact hafter
  · exact hd.controller_run_handling session o now timing

/-- A device whose record shows an action is sent nothing else by reports one after another. -/
theorem Sound.answersTo_of_shows (hd : d.Sound) (hgone : d.controller.owner.serving = false)
    (hshows : d.controller.Shows device action) (reports : List Report) :
    ∀ answer ∈ d.controller.answersTo reports, answer.device = device → answer.action = action := by
  induction reports generalizing d with
  | nil => exact fun answer hanswer => absurd hanswer List.not_mem_nil
  | cons report reports ih =>
      obtain ⟨session, o, now, timing⟩ := report
      have hhandle := handle_of_not_serving hd.registry hgone session o now timing
      obtain ⟨hkept, hanswered⟩ := hhandle.2 device action hshows
      obtain ⟨d', hd', hgone', hcontroller⟩ := hd.not_serving_handle hgone session o now timing
      intro answer hanswer
      rw [answersTo, List.mem_append] at hanswer
      obtain hfirst | hlater := hanswer
      · exact hanswered answer (Option.mem_toList.mp hfirst)
      · rw [← hcontroller] at hlater hkept
        exact ih hd' hgone' hkept answer hlater

/-- Reports that are handled one after another have one action for each device. -/
theorem Sound.answersTo_pairwise (hd : d.Sound) (hgone : d.controller.owner.serving = false)
    (reports : List Report) :
    (d.controller.answersTo reports).Pairwise fun p q =>
      p.device = q.device → p.action = q.action := by
  induction reports generalizing d with
  | nil => exact .nil
  | cons report reports ih =>
      obtain ⟨session, o, now, timing⟩ := report
      have hhandle := handle_of_not_serving hd.registry hgone session o now timing
      obtain ⟨d', hd', hgone', hcontroller⟩ := hd.not_serving_handle hgone session o now timing
      rw [answersTo, ← hcontroller, List.pairwise_append]
      refine ⟨?_, ih hd' hgone', ?_⟩
      · cases (d.controller.handle session o now timing).result with
        | none => exact .nil
        | some answer => exact List.pairwise_singleton _ _
      · intro p hp q hq hdevice
        have hshows := hhandle.1 p (Option.mem_toList.mp hp)
        rw [← hcontroller] at hshows
        exact (hd'.answersTo_of_shows hgone' hshows reports q hq hdevice.symm).symm

/-- Once the policy is not served, at any moment of any run, it never is again, and every
observation that is handled and admitted is answered without it: with the action that its device was
sent last, or else the one that it reports, if the catalog knows it, or else the first one. The
request is closed, the answer recorded and counted as a fallback, and no other device is touched.
Observations that are handled one after another have one action for each device, the one that its
record shows. Handling one is a run of three calls. Whatever is called from then on, and however the
decisions are interleaved, from any moment on a device is sent the action that its record shows, or
that it has just been sent, for as long as it stays registered. -/
theorem fallback_repeats_last_action {config : Config} {policy : P} {c : Controller P}
    (h : ofPolicy config policy = .ok c) (earlier : List Call)
    (hgone : ((start c).run earlier).controller.owner.serving = false) :
    let d := (start c).run earlier
    (∀ calls n, (d.after calls n).controller.owner.serving = false) ∧
      (∀ session o now timing, (d.controller.accept session o now).result ≠ none →
        d.controller.FallsBack session o (d.controller.handle session o now timing)) ∧
      (∀ reports device action, d.controller.Shows device action →
        ∀ p ∈ d.controller.answersTo reports, p.device = device → p.action = action) ∧
      (∀ reports, (d.controller.answersTo reports).Pairwise fun p q =>
        p.device = q.device → p.action = q.action) ∧
      (∀ session o now timing, (d.run (d.handling session o now timing)).controller =
        (d.controller.handle session o now timing).controller) ∧
      (∀ calls s n device action, s ≤ n → d.Steady calls device s n →
        (d.after calls s).controller.Shows device action →
          ∀ p ∈ d.answersOf calls device s n, p.2.action = action) ∧
      ∀ calls k n ticket answer, d.sentAt calls k = some (ticket, answer) → k < n →
        d.Steady calls answer.device (k + 1) n →
          ∀ p ∈ d.answersOf calls answer.device (k + 1) n, p.2.action = answer.action := by
  intro d
  have hd : d.Sound := (sound_of_ofPolicy h).run earlier
  refine ⟨hd.not_serving_after hgone, ?_, fun reports device action hshows =>
    hd.answersTo_of_shows hgone hshows reports, hd.answersTo_pairwise hgone,
    hd.controller_run_handling, ?_, ?_⟩
  · intro session o now timing hadmitted
    obtain ⟨a, ha⟩ := Option.ne_none_iff_exists'.mp hadmitted
    exact fallsBack_of_unanswered hd.registry ha (unanswered_of_not_serving hgone a timing)
  · intro calls s n device action hle hsteady hshows
    obtain ⟨r, hfind, haction⟩ := hshows
    exact (hd.repeats_after hgone hle hfind haction hsteady).2
  · intro calls k n ticket answer hsent hlt hsteady
    obtain ⟨r, hfind, haction⟩ := hd.record_of_sentAt hsent
    exact (hd.repeats_after hgone hlt hfind haction hsteady).2

/-- A meter is answered by the policy, which is stopped afterwards. -/
def stoppingRun : List Call :=
  [.opened, .accept (.uniform 1) ⟨⟨"meter"⟩, none, .missing, none⟩ 0, .prepare 0 .prompt,
    .conclude 0, .shutdown]

/-- The desk on which the policy was stopped. -/
def stopped (c : Controller Scripted) : Desk Scripted := (start c).run stoppingRun

/-- The meter reports twice more, the first time another action than it was sent. -/
def reportingRun : List Call :=
  [.accept (.uniform 1) ⟨⟨"meter"⟩, some (.ofNat 9), .missing, none⟩ 5, .prepare 1 .prompt,
    .conclude 1, .accept (.uniform 1) ⟨⟨"meter"⟩, none, .missing, some 7⟩ 8, .prepare 2 .late,
    .conclude 2]

/-- The meter is sent what it was sent before, and a valve that was not seen before what it
reports. -/
theorem fallback_repeats_last_action_stopped :
    ∃ c, ofPolicy .standard (Scripted.create 30 [.ofNat 4]) = .ok c ∧
      (stopped c).controller.owner.serving = false ∧
      (∃ answer, ((stopped c).controller.handle (.uniform 1)
        ⟨⟨"valve"⟩, some (.ofNat 9), .missing, none⟩ 3 .prompt).result = some answer ∧
          answer.action = .ofNat 9) ∧
      (stopped c).Steady reportingRun ⟨"meter"⟩ 0 6 ∧
      ((stopped c).answersOf reportingRun ⟨"meter"⟩ 0 6).length = 2 ∧
      ∀ p ∈ (stopped c).answersOf reportingRun ⟨"meter"⟩ 0 6, p.2.action = .ofNat 4 := by
  have h : ofPolicy .standard (Scripted.create 30 [.ofNat 4]) = .ok _ := rfl
  obtain ⟨-, hfallsBack, -, -, -, hrepeats, -⟩ := fallback_repeats_last_action h stoppingRun rfl
  have hvalve := hfallsBack (.uniform 1) ⟨⟨"valve"⟩, some (.ofNat 9), .missing, none⟩ 3 .prompt
    (Option.some_ne_none _)
  refine ⟨_, h, rfl, ⟨_, hvalve.answer, rfl⟩, ?_⟩
  suffices hsteady : (stopped _).Steady reportingRun ⟨"meter"⟩ 0 6 from
    ⟨hsteady, rfl, hrepeats reportingRun 0 6 _ _ (Nat.zero_le 6) hsteady ⟨_, rfl, rfl⟩⟩
  constructor
  · intro m hm hle
    have hm : m = 1 ∨ m = 2 ∨ m = 3 ∨ m = 4 ∨ m = 5 ∨ m = 6 := by omega
    rcases hm with rfl | rfl | rfl | rfl | rfl | rfl <;> rfl
  · intro p hp
    change p ∈ [(1, ⟨⟨"meter"⟩, .ofNat 4, none⟩), (2, ⟨⟨"meter"⟩, .ofNat 4, some 7⟩)] at hp
    change 1 ≤ p.1
    simp only [List.mem_cons, List.not_mem_nil, or_false] at hp
    rcases hp with rfl | rfl <;> decide

end Desk

end LinkTuner

import LinkTuner.Proofs.Controller.Moments

/-!
# What a call does to the record of one device

A record changes only when its device reports, when its request is answered and when it is
forgotten. Whatever holds of records along a run follows from the four ways, said here once, in
which the record that a device has after a call can have come about.
-/

namespace LinkTuner.Desk

open Controller

variable {P : Type} [Learner P]

/-- The record of a device. -/
def record? (d : Desk P) (device : DeviceId) : Option Record :=
  d.controller.registry.find? device

/-- How the record that a device has after a call has come about, with the admission that the call
makes for the device and the answer that it sends to it. -/
inductive Recorded (d : Desk P) (device : DeviceId) :
    Call → Option (Nat × Admission) → Option (Nat × Wire.Decision) → Record → Prop
  /-- The call leaves the record alone. -/
  | kept {call : Call} {r : Record} (hfind : d.record? device = some r)
      (hreport : ∀ session o now, call = .accept session o now → o.device ≠ device)
      (hanswer : ∀ ticket choice, call = .conclude ticket →
        d.chosen.find? ticket = some choice → choice.admission.observation.device = device →
        r.phase = .idle) :
      Recorded d device call none none r
  /-- The device reports while its request is open. -/
  | duplicate {session : SessionId} {o : Wire.Observation} {now since : Time} {r : Record}
      (hdevice : o.device = device) (hfind : d.record? device = some r)
      (hphase : r.phase = .awaiting since) :
      Recorded d device (.accept session o now) none none { r with session }
  /-- The device reports and its request is opened. -/
  | admitted {session : SessionId} {o : Wire.Observation} {now : Time} {r : Record}
      (hdevice : o.device = device)
      (hfind : d.record? device = some r ∨ d.record? device = none ∧ r = .fresh device session)
      (hphase : r.phase = .idle) :
      Recorded d device (.accept session o now)
        (some (d.issued, admission d.controller.catalog o r.action)) none
        { r with session, phase := .awaiting now }
  /-- The request of the device is answered. -/
  | answered {ticket : Nat} {choice : Choice} {since : Time} {r : Record}
      (hchosen : d.chosen.find? ticket = some choice)
      (hdevice : choice.admission.observation.device = device)
      (hfind : d.record? device = some r) (hphase : r.phase = .awaiting since) :
      Recorded d device (.conclude ticket) none
        (some (ticket, ⟨device, choice.action, choice.admission.observation.sequence⟩))
        (Registry.closed r choice.action (choice.reward.map (·.1.value)) choice.how)

/-- The admission that a call makes for a device. -/
def admittedFor (d : Desk P) (device : DeviceId) (call : Call) : Option (Nat × Admission) :=
  (d.admittedBy call).filter fun p => p.2.observation.device = device

/-- The answer that a call sends to a device. -/
def sentTo (d : Desk P) (device : DeviceId) (call : Call) : Option (Nat × Wire.Decision) :=
  (d.sentBy call).filter fun p => p.2.device = device

section

variable {d : Desk P} {device : DeviceId} {r : Record}

omit [Learner P] in
/-- A record that a call leaves alone. -/
theorem recorded_of_other {call : Call} (hfind : d.record? device = some r)
    (hreport : ∀ session o now, call = .accept session o now → o.device ≠ device)
    (hanswer : ∀ ticket, call ≠ .conclude ticket) : Recorded d device call none none r :=
  .kept hfind hreport fun ticket _ hcall => absurd hcall (hanswer ticket)

/-- Accepting an observation touches the record of its device only. -/
theorem recorded_accept (hd : d.Sound) {session : SessionId} {o : Wire.Observation} {now : Time}
    (hfind : (d.step (.accept session o now)).record? device = some r) :
    Recorded d device (.accept session o now) (d.admittedFor device (.accept session o now)) none
      r := by
  have hc := accepted hd.registry session o now
  simp only [record?, step, controller_enter] at hfind
  simp only [admittedFor, admittedBy]
  generalize (d.controller.accept session o now).result = result at hc ⊢
  generalize (d.controller.accept session o now).controller = c at hc hfind
  have hother (hne : o.device ≠ device) (hsame : c.registry.find? device = d.record? device) :
      Recorded d device (.accept session o now) none none r := by
    rw [hsame] at hfind
    exact recorded_of_other hfind (by rintro _ _ _ ⟨⟩; exact hne) (by rintro _ ⟨⟩)
  cases hc with
  | full hnew hfull =>
      have hne : o.device ≠ device := by
        rintro rfl
        rw [registry_count, hnew] at hfind
        cases hfind
      exact hother hne rfl
  | @duplicate r' since g hid hbefore hphase hnext =>
      by_cases hdevice : o.device = device
      · subst hdevice
        rw [registry_count, ← hid, hnext.find?_self] at hfind
        cases hfind
        exact .duplicate rfl hbefore hphase
      · exact hother hdevice (hnext.find?_of_ne (hid ▸ Ne.symm hdevice))
  | @admitted r' g hid hbefore hphase hnext =>
      by_cases hdevice : o.device = device
      · subst hdevice
        rw [registry_count, ← hid, hnext.find?_self] at hfind
        cases hfind
        have hbefore := hbefore.imp_right fun h => And.intro h.1 h.2.2
        have h : Recorded d o.device (.accept session o now) _ none _ :=
          .admitted rfl hbefore hphase
        simpa [Option.filter, admission] using h
      · have h := hother hdevice (hnext.find?_of_ne (hid ▸ Ne.symm hdevice))
        simpa [Option.filter, admission, hdevice] using h

/-- Concluding a decision touches the record of its device only. -/
theorem recorded_conclude (hd : d.Sound) {ticket : Nat}
    (hfind : (d.step (.conclude ticket)).record? device = some r) :
    Recorded d device (.conclude ticket) none (d.sentTo device (.conclude ticket)) r := by
  have hstep := stepped hd.registry (.conclude ticket)
  simp only [sentTo, sentBy]
  generalize d.step (.conclude ticket) = d' at hstep hfind
  cases hstep with
  | unconcluded hchosen =>
      have hnone : d.decision ticket = none := by simp [decision, hchosen]
      rw [hnone]
      refine .kept hfind (by rintro _ _ _ ⟨⟩) ?_
      rintro _ choice ⟨⟩ hsome
      rw [hchosen] at hsome
      cases hsome
  | @concluded _ choice c hchosen hc =>
      generalize d.decision ticket = answer at hc ⊢
      cases hc with
      | gone hidle =>
          refine .kept hfind (by rintro _ _ _ ⟨⟩) ?_
          rintro _ _ ⟨⟩ hsome rfl
          rw [hchosen] at hsome
          cases hsome
          exact hidle r hfind
      | @closed r' since g hid hbefore hphase hnext =>
          by_cases hdevice : choice.admission.observation.device = device
          · subst hdevice
            have hself : g.find? choice.admission.observation.device = some _ :=
              hid ▸ hnext.find?_self
            have heq : some _ = some r := hself.symm.trans hfind
            cases heq
            simpa [Option.filter] using Recorded.answered hchosen rfl hbefore hphase
          · have hother : device ≠ r'.id := fun heq => hdevice (hid ▸ heq.symm)
            have hsame : d.record? device = some r := (hnext.find?_of_ne hother).symm.trans hfind
            have h : Recorded d device (.conclude ticket) none none r := by
              refine .kept hsame (by rintro _ _ _ ⟨⟩) ?_
              rintro _ _ ⟨⟩ hsome heq
              rw [hchosen] at hsome
              cases hsome
              exact absurd heq hdevice
            simpa [Option.filter, hdevice] using h

omit [Learner P] in
/-- Forgetting the devices of a session leaves the other records alone. -/
theorem record?_evict (hg : d.controller.registry.Sound) {session : SessionId}
    (hfind : (d.controller.evict session).controller.registry.find? device = some r) :
    d.record? device = some r ∧ r.session ≠ session := by
  have hevict := hg.find?_evictSession session device
  have hsome := hevict.symm.trans hfind
  obtain ⟨hbefore, hsession⟩ := Option.filter_eq_some_iff.mp hsome
  exact ⟨hbefore, by simpa using hsession⟩

/-- Every record that a device has after a call has come about in one of the four ways. -/
theorem Sound.recorded (hd : d.Sound) (call : Call)
    (hfind : (d.step call).record? device = some r) :
    Recorded d device call (d.admittedFor device call) (d.sentTo device call) r := by
  cases call with
  | accept session o now => exact recorded_accept hd hfind
  | conclude ticket => exact recorded_conclude hd hfind
  | prepare ticket timing =>
      refine recorded_of_other ?_ (by rintro _ _ _ ⟨⟩) (by rintro _ ⟨⟩)
      have hstep := stepped hd.registry (.prepare ticket timing)
      generalize d.step (.prepare ticket timing) = d' at hstep hfind
      cases hstep with
      | unprepared hwaiting => exact hfind
      | @prepared _ _ a choice c hwaiting hc =>
          have hregistry : c.registry = d.controller.registry := hc.registry_eq
          rwa [record?, Desk.advance, hregistry] at hfind
  | closed session =>
      exact recorded_of_other (record?_evict hd.registry hfind).1 (by rintro _ _ _ ⟨⟩)
        (by rintro _ ⟨⟩)
  | evict session =>
      exact recorded_of_other (record?_evict hd.registry hfind).1 (by rintro _ _ _ ⟨⟩)
        (by rintro _ ⟨⟩)
  | opened | malformed | shutdown | read =>
      exact recorded_of_other hfind (by rintro _ _ _ ⟨⟩) (by rintro _ ⟨⟩)

/-! ## Admissions and answers -/

/-- An admission is made for a device without an open request and opens one. The action that the
device was sent last, if it is known, is the one to which the outcome is credited. -/
theorem Sound.of_admittedBy (hd : d.Sound) {call : Call} {ticket : Nat} {a : Admission}
    (h : d.admittedBy call = some (ticket, a)) :
    ∃ session o now before, call = .accept session o now ∧ ticket = d.issued ∧
      a = admission d.controller.catalog o before.action ∧ before.phase = .idle ∧
      (d.record? o.device = some before ∨
        d.record? o.device = none ∧ before = .fresh o.device session) ∧
      (d.step call).record? o.device = some { before with session, phase := .awaiting now } := by
  cases call with
  | accept session o now =>
      have hc := accepted hd.registry session o now
      simp only [record?, Desk.step, controller_enter]
      simp only [admittedBy] at h
      generalize (d.controller.accept session o now).result = result at h hc
      generalize (d.controller.accept session o now).controller = c at hc ⊢
      cases hc with
      | full hnew hfull => cases h
      | duplicate hid hbefore hphase hnext => cases h
      | @admitted before g hid hbefore hphase hnext =>
          cases h
          have hbefore := hbefore.imp_right fun h => And.intro h.1 h.2.2
          refine ⟨session, o, now, before, rfl, rfl, rfl, hphase, hbefore, ?_⟩
          rw [registry_count, ← hid]
          exact hnext.find?_self
  | _ => cases h

theorem Sound.call_of_admittedAt (hd : d.Sound) {calls : List Call} {n ticket : Nat}
    {a : Admission} (h : d.admittedAt calls n = some (ticket, a)) :
    ∃ session now, calls[n]? = some (.accept session a.observation now) := by
  obtain ⟨call, hcall, hadmitted⟩ := Option.bind_eq_some_iff.mp h
  obtain ⟨session, o, now, -, rfl, -, rfl, -⟩ := (hd.after n).of_admittedBy hadmitted
  exact ⟨session, now, hcall⟩

/-- An answer carries the action that was chosen for its ticket and closes the request of its
device. -/
theorem Sound.of_sentBy (hd : d.Sound) {call : Call} {ticket : Nat} {answer : Wire.Decision}
    (h : d.sentBy call = some (ticket, answer)) :
    ∃ choice before since, call = .conclude ticket ∧ d.chosen.find? ticket = some choice ∧
      answer = ⟨choice.admission.observation.device, choice.action,
        choice.admission.observation.sequence⟩ ∧
      d.record? answer.device = some before ∧ before.phase = .awaiting since ∧
      (d.step call).record? answer.device = some (Registry.closed before choice.action
        (choice.reward.map (·.1.value)) choice.how) := by
  cases call with
  | conclude k =>
      obtain ⟨answer', hanswer, heq⟩ := Option.map_eq_some_iff.mp h
      cases heq
      have hstep := stepped hd.registry (.conclude ticket)
      generalize d.step (.conclude ticket) = d' at hstep ⊢
      cases hstep with
      | unconcluded hchosen =>
          simp [decision, hchosen] at hanswer
      | @concluded _ choice c hchosen hc =>
          rw [hanswer] at hc
          generalize hresult : some answer = result at hc
          cases hc with
          | gone hidle => cases hresult
          | @closed before since g hid hbefore hphase hnext =>
              cases hresult
              have hself : g.find? choice.admission.observation.device = some _ :=
                hid ▸ hnext.find?_self
              exact ⟨choice, before, since, rfl, hchosen, rfl, hbefore, hphase, hself⟩
  | _ => cases h

end

end LinkTuner.Desk

import LinkTuner.Policy.Scripted
import LinkTuner.Proofs.Controller.Records

/-!
# Who owns a device

A device reports through the session of its latest observation, also of one that is discarded as a
duplicate. So as long as observations are accepted only for open sessions, every registered device
belongs to an open session, and closing the sessions leaves nothing behind. A decision that is
concluded late changes the record of a registered device only, so it brings no device back.
-/

namespace LinkTuner.Desk

open Controller

variable {P : Type} [Learner P]

/-- The sessions that are open after the first `n` calls, the latest first. A controller is not told
which session begins; `begins i` is the one that begins with the call in place `i`. A session that
begins twice has to end twice. -/
def present (begins : Nat → SessionId) (calls : List Call) : Nat → List SessionId
  | 0 => []
  | n + 1 =>
    match calls[n]? with
    | some .opened => begins n :: present begins calls n
    | some (.closed session) => (present begins calls n).erase session
    | _ => present begins calls n

/-- The session through which the device has reported last in the first `n` calls. -/
def latest (calls : List Call) (device : DeviceId) : Nat → Option SessionId
  | 0 => none
  | n + 1 =>
    match calls[n]? with
    | some (.accept session o _) =>
      if o.device = device then some session else latest calls device n
    | _ => latest calls device n

/-- Every observation is accepted for a session that is open. -/
def Attended (begins : Nat → SessionId) (calls : List Call) : Prop :=
  ∀ n session o now, calls[n]? = some (.accept session o now) → session ∈ present begins calls n

section Ownership

variable {begins : Nat → SessionId} {calls : List Call} {n : Nat} {d : Desk P}

/-! ## Sessions and reports, call by call -/

theorem mem_present_succ {session : SessionId} (h : session ∈ present begins calls n)
    (hclosed : calls[n]? ≠ some (.closed session)) : session ∈ present begins calls (n + 1) := by
  unfold present
  split
  case h_1 => exact List.mem_cons_of_mem _ h
  case h_2 other hcall =>
    have hne : session ≠ other := by
      rintro rfl
      exact hclosed hcall
    exact (List.mem_erase_of_ne hne).mpr h
  case h_3 => exact h

theorem latest_succ_of_accept {session : SessionId} {o : Wire.Observation} {now : Time}
    (h : calls[n]? = some (.accept session o now)) :
    latest calls o.device (n + 1) = some session := by
  simp [latest, h]

theorem latest_succ_of_other {device : DeviceId}
    (h : ∀ session o now, calls[n]? = some (.accept session o now) → o.device ≠ device) :
    latest calls device (n + 1) = latest calls device n := by
  rw [latest]
  split
  case h_1 session o now hcall => simp [h session o now hcall]
  case h_2 => rfl

/-- What a call makes of the number of active sessions. -/
def sessionsAfter (k : Nat) : Call → Nat
  | .opened => k + 1
  | .closed _ => k - 1
  | _ => k

/-- Only the beginnings and ends of sessions are counted as such. -/
theorem Stepped.sessionsActive_eq {call : Call} {d' : Desk P} (h : Stepped d call d') :
    d'.controller.counters.sessionsActive =
      sessionsAfter d.controller.counters.sessionsActive call := by
  cases h with
  | accepted hc => cases hc <;> simp [count, sessionsAfter]
  | @prepared ticket timing a choice c hfind hc =>
      have hchosen := hc.chosen
      generalize (choice.action, choice.how) = pair at hchosen
      cases hchosen <;> rfl
  | @concluded ticket choice c hfind hc =>
      generalize d.decision ticket = answer at hc
      cases hc <;> rfl
  | _ => rfl

/-- There are at least as many open sessions as are counted, whatever ends. -/
theorem sessionsAfter_le {k : Nat} (h : k ≤ (present begins calls n).length) {call : Call}
    (hcall : calls[n]? = some call) :
    sessionsAfter k call ≤ (present begins calls (n + 1)).length := by
  cases call with
  | opened =>
      simp only [sessionsAfter, present, hcall, List.length_cons]
      omega
  | closed session =>
      simp only [sessionsAfter, present, hcall, List.length_erase]
      split <;> omega
  | _ => simpa [sessionsAfter, present, hcall] using h

/-! ## Every device belongs to the session of its latest report -/

/-- The desk after `n` calls: who owns a device, and how many sessions are counted as active. -/
structure Owned (begins : Nat → SessionId) (calls : List Call) (n : Nat) (d : Desk P) : Prop where
  owner {device : DeviceId} {r : Record} : d.record? device = some r →
    latest calls device n = some r.session ∧ r.session ∈ present begins calls n
  active : d.controller.counters.sessionsActive ≤ (present begins calls n).length

theorem owned_start {config : Config} {policy : P} {c : Controller P}
    (h : ofPolicy config policy = .ok c) : Owned begins calls 0 (start c) := by
  constructor
  · intro device r hfind
    rw [record?, start, (ofPolicy_ok h).1] at hfind
    cases hfind
  · rw [start, (ofPolicy_ok h).2]
    exact Nat.le_refl _

namespace Owned

/-- The session of a record was open before the call, and is that of the latest report. -/
theorem owner_step (h : Owned begins calls n d) (hd : d.Sound) (hattended : Attended begins calls)
    {call : Call} (hcall : calls[n]? = some call) {device : DeviceId} {r : Record}
    (hfind : (d.step call).record? device = some r) :
    latest calls device (n + 1) = some r.session ∧ r.session ∈ present begins calls n := by
  have hrecorded := hd.recorded call hfind
  generalize d.admittedFor device call = admitted at hrecorded
  generalize d.sentTo device call = sent at hrecorded
  cases hrecorded with
  | kept hbefore hreport hanswer =>
      rw [latest_succ_of_other fun session o now heq =>
        hreport session o now (Option.some.inj (hcall.symm.trans heq))]
      exact h.owner hbefore
  | duplicate hdevice hbefore hphase =>
      exact ⟨hdevice ▸ latest_succ_of_accept hcall, hattended n _ _ _ hcall⟩
  | admitted hdevice hbefore hphase =>
      exact ⟨hdevice ▸ latest_succ_of_accept hcall, hattended n _ _ _ hcall⟩
  | answered hchosen hdevice hbefore hphase =>
      have howner := h.owner hbefore
      rw [latest_succ_of_other (by rw [hcall]; rintro _ _ _ ⟨⟩)]
      exact howner

theorem step (h : Owned begins calls n d) (hd : d.Sound) (hattended : Attended begins calls)
    {call : Call} (hcall : calls[n]? = some call) : Owned begins calls (n + 1) (d.step call) := by
  constructor
  · intro device r hfind
    obtain ⟨hlatest, hpresent⟩ := h.owner_step hd hattended hcall hfind
    refine ⟨hlatest, mem_present_succ hpresent ?_⟩
    -- The records of a session that ends are forgotten by the same call.
    intro hclosed
    obtain rfl := Option.some.inj (hcall.symm.trans hclosed)
    exact (record?_evict hd.registry hfind).2 rfl
  · rw [(stepped hd.registry call).sessionsActive_eq]
    exact sessionsAfter_le h.active hcall

omit [Learner P] in
/-- Past the last call nothing changes. -/
theorem rest (h : Owned begins calls n d) (hcall : calls[n]? = none) :
    Owned begins calls (n + 1) d := by
  have hpresent : present begins calls (n + 1) = present begins calls n := by
    simp [Desk.present, hcall]
  constructor
  · intro device r hfind
    rw [latest_succ_of_other (by simp [hcall]), hpresent]
    exact h.owner hfind
  · rw [hpresent]
    exact h.active

end Owned

/-- A session that ends takes the devices that reported through it last, and leaves every other
record as it was. -/
theorem Owned.record?_closed (h : Owned begins calls n d) (hd : d.Sound) (session : SessionId)
    (device : DeviceId) :
    (d.step (.closed session)).record? device =
      if latest calls device n = some session then none else d.record? device := by
  have hevict : (d.step (.closed session)).record? device =
      (d.record? device).filter fun r => r.session ≠ session :=
    hd.registry.find?_evictSession session device
  rw [hevict]
  cases hfind : d.record? device with
  | none => simp
  | some r =>
      rw [(h.owner hfind).1]
      by_cases hs : r.session = session <;> simp [Option.filter, hs]

omit [Learner P] in
/-- With no session open there is no device. -/
theorem Owned.empty (h : Owned begins calls n d) (hpresent : present begins calls n = [])
    (device : DeviceId) : d.record? device = none := by
  cases hfind : d.record? device with
  | none => rfl
  | some r =>
      have hmem := (h.owner hfind).2
      rw [hpresent] at hmem
      cases hmem

/-- Where observations are accepted for open sessions only, at every moment of a run a registered
device belongs to the session of its latest report, and that session is open. A session that ends
takes exactly the devices whose latest report it was. Once no session is open no device is left, so
all the room is free, no request is open and no session is counted as active. -/
theorem devices_owned_by_latest_reporter {config : Config} {policy : P} {c : Controller P}
    (h : ofPolicy config policy = .ok c) (begins : Nat → SessionId) (calls : List Call)
    (hattended : Attended begins calls) (n : Nat) :
    let d := (start c).after calls n
    (∀ device r, d.record? device = some r →
        latest calls device n = some r.session ∧ r.session ∈ present begins calls n) ∧
      (∀ session device, (d.step (.closed session)).record? device =
        if latest calls device n = some session then none else d.record? device) ∧
      (present begins calls n = [] →
        (∀ device, d.record? device = none) ∧ d.controller.registry.size = 0 ∧
          d.controller.registry.pendingCount = 0 ∧ d.controller.counters.sessionsActive = 0) := by
  intro d
  have hstart : (start c).Sound := sound_of_ofPolicy h
  have hd : d.Sound := hstart.after n
  have howned : Owned begins calls n ((start c).after calls n) :=
    after_induction (owned_start h)
      (fun n call hcall howned => howned.step (hstart.after n) hattended hcall)
      (fun n hcall howned => howned.rest hcall) n
  refine ⟨fun device r => howned.owner, howned.record?_closed hd, ?_⟩
  intro hpresent
  have hempty := howned.empty hpresent
  have hactive := howned.active
  rw [hpresent] at hactive
  refine ⟨hempty, hd.registry.size_eq_zero hempty, ?_, Nat.le_zero.mp hactive⟩
  apply hd.registry.pendingCount_eq_zero_iff.mpr
  intro device r hfind
  have hnone : d.controller.registry.find? device = none := hempty device
  rw [hnone] at hfind
  cases hfind

end Ownership

/-- Sessions are numbered by the calls that begin them. -/
def numbered (n : Nat) : SessionId := .uniform (.ofNat n)

/-- A device moves to another session with a report that is discarded, and both sessions end. Its
decision is concluded in between. -/
def movingRun : List Call :=
  [.opened, .opened, .accept (numbered 0) ⟨⟨"meter"⟩, none, .missing, none⟩ 0,
    .accept (numbered 1) ⟨⟨"meter"⟩, none, .missing, none⟩ 4, .closed (numbered 0),
    .prepare 0 .late, .conclude 0, .closed (numbered 1)]

theorem devices_owned_by_latest_reporter_movingRun :
    ∃ c, ofPolicy .standard (Scripted.create 30 [.ofNat 4]) = .ok c ∧
      Attended numbered movingRun ∧
      (∃ r, ((start c).after movingRun 7).record? ⟨"meter"⟩ = some r ∧ r.session = numbered 1) ∧
      ((start c).after movingRun 8).controller.registry.size = 0 := by
  have h : ofPolicy .standard (Scripted.create 30 [.ofNat 4]) = .ok _ := rfl
  have hattended : Attended numbered movingRun := by
    intro n session o now hcall
    match n with
    | 0 | 1 | 4 | 5 | 6 | 7 | k + 8 => simp [movingRun] at hcall
    | 2 | 3 =>
        cases hcall
        decide
  refine ⟨_, h, hattended, ?_, ?_⟩
  · have howner := (devices_owned_by_latest_reporter h numbered movingRun hattended 7).1 ⟨"meter"⟩
    exact ⟨_, rfl, (Option.some.inj (howner _ rfl).1).symm⟩
  · exact ((devices_owned_by_latest_reporter h numbered movingRun hattended 8).2.2 rfl).2.1

end LinkTuner.Desk

import LinkTuner.Policy.Scripted
import LinkTuner.Proofs.Controller.Records

/-!
# Which request a decision closes

An admission holds no token of the request that it opened: concluding its decision looks for an open
request of its device, whoever opened it. A device that is evicted and reports again meanwhile has a
request that the earlier admission can close. Nothing else can go wrong, so decisions close exactly
their own requests in the runs in which no late conclusion finds its device waiting again.
-/

namespace LinkTuner.Desk

open Controller

variable {P : Type} [Learner P]

/-! ## What one call does to tickets and requests -/

section Stepped

variable {d d' : Desk P} {call : Call}

/-- An observation that is given a ticket opens the request of its device. -/
theorem Stepped.admitted {session : SessionId} {o : Wire.Observation} {now : Time}
    (h : Stepped d (.accept session o now) d') (hissued : d'.issued = d.issued + 1) :
    (∃ a, d'.held d.issued = some a ∧ a.observation = o) ∧
      ¬d.controller.Awaits o.device ∧ d'.controller.Awaits o.device := by
  cases h with
  | @accepted _ _ _ result c hc =>
      cases result with
      | none =>
          simp only [enter] at hissued
          omega
      | some a =>
          obtain ⟨ho, hbefore, hafter⟩ := hc.opens
          exact ⟨⟨a, held_enter_self d c a, ho⟩, hbefore, hafter⟩

/-- A concluded ticket is not held any more. -/
theorem Stepped.held_concluded {ticket : Nat} (hd : d.Sound)
    (h : Stepped d (.conclude ticket) d') {choice : Choice}
    (hchosen : d.chosen.find? ticket = some choice) : d'.held ticket = none := by
  cases h with
  | concluded hfind hc => exact held_leave_self hd hfind _
  | unconcluded hfind =>
      rw [hchosen] at hfind
      cases hfind

/-- An open request stays open until its device is forgotten or a decision for the device is
concluded. -/
theorem Stepped.awaits_cases (hd : d.Sound) (h : Stepped d call d') {device : DeviceId}
    (hopen : d.controller.Awaits device) :
    d'.controller.Awaits device ∨ ¬d'.controller.Knows device ∨
      ∃ ticket choice, call = .conclude ticket ∧ d.chosen.find? ticket = some choice ∧
        choice.admission.observation.device = device := by
  cases h with
  | @accepted session o now result c hc =>
      left
      rw [controller_enter]
      exact hc.awaits hopen
  | @prepared ticket timing a choice c hfind hc =>
      left
      obtain ⟨r, since, hrecord, hphase⟩ := hopen
      have hregistry : c.registry = d.controller.registry := hc.registry_eq
      exact ⟨r, since, by simpa [advance, hregistry] using hrecord, hphase⟩
  | @concluded ticket choice c hfind hc =>
      by_cases heq : choice.admission.observation.device = device
      · exact .inr (.inr ⟨ticket, choice, rfl, hfind, heq⟩)
      · exact .inl (hc.awaits (Ne.symm heq) hopen)
  | @closed session =>
      obtain h | h := awaits_evict hd.registry session hopen
      · exact .inl h
      · exact .inr (.inl h)
  | @evicted session =>
      obtain h | h := awaits_evict hd.registry session hopen
      · exact .inl h
      · exact .inr (.inl h)
  | _ => exact .inl hopen

end Stepped

/-- The observation accepted by the call in place `i` is given a ticket. -/
structure Admits (d : Desk P) (calls : List Call) (i ticket : Nat) (o : Wire.Observation) :
    Prop where
  call : ∃ session now, calls[i]? = some (.accept session o now)
  ticket_eq : ticket = (d.after calls i).issued
  issued : (d.after calls (i + 1)).issued = (d.after calls i).issued + 1

/-- The call in place `n` concludes the decision for the observation accepted in place `i`. -/
structure Concludes (d : Desk P) (calls : List Call) (i n ticket : Nat) (o : Wire.Observation) :
    Prop where
  admits : d.Admits calls i ticket o
  later : i < n
  call : calls[n]? = some (.conclude ticket)
  chosen : ∃ choice, (d.after calls n).chosen.find? ticket = some choice

/-- The device is registered at every moment after the call in place `i` and up to the call in
place `n`. -/
def Stays (d : Desk P) (calls : List Call) (device : DeviceId) (i n : Nat) : Prop :=
  ∀ m, i < m → m ≤ n → (d.after calls m).controller.Knows device

/-- The decision concluded in place `n` has an answer exactly when its device was never evicted, and
an answer is for the observation accepted in place `i` and closes the request that was opened for
it. -/
structure ClosesOwn (d : Desk P) (calls : List Call) (i n ticket : Nat) (o : Wire.Observation) :
    Prop where
  answered_iff : ((d.after calls n).decision ticket).isSome = true ↔ d.Stays calls o.device i n
  own {answer : Wire.Decision} : (d.after calls n).decision ticket = some answer →
    answer.device = o.device ∧ answer.sequence = o.sequence ∧
      (∀ m, i < m → m ≤ n → (d.after calls m).controller.Awaits o.device) ∧
      ¬(d.after calls (n + 1)).controller.Awaits o.device

/-- The device was evicted after its observation was accepted in place `i`, and waits for another
decision when the one for that observation is concluded in place `n`. -/
def Steals (d : Desk P) (calls : List Call) (device : DeviceId) (i n : Nat) : Prop :=
  ¬d.Stays calls device i n ∧ (d.after calls n).controller.Awaits device

section Requests

variable {d : Desk P} {calls : List Call} {i n ticket : Nat} {o : Wire.Observation}

/-- Right after an admission its ticket is held and the request of its device is open. -/
theorem Admits.opened (h : d.Admits calls i ticket o) (hd : d.Sound) :
    (∃ a, (d.after calls (i + 1)).held ticket = some a ∧ a.observation = o) ∧
      ¬(d.after calls i).controller.Awaits o.device ∧
      (d.after calls (i + 1)).controller.Awaits o.device := by
  obtain ⟨session, now, hcall⟩ := h.call
  rw [h.ticket_eq]
  exact (hd.stepped_after hcall).admitted h.issued

theorem Admits.ticket_lt (h : d.Admits calls i ticket o) :
    ticket < (d.after calls (i + 1)).issued := by
  rw [h.ticket_eq, h.issued]
  exact Nat.lt_succ_self _

/-- The admission of a ticket is that of the observation for which it was handed out. -/
theorem Admits.observation_eq (h : d.Admits calls i ticket o) (hd : d.Sound) (hlater : i < n)
    {a : Admission} (hheld : (d.after calls n).held ticket = some a) : a.observation = o := by
  obtain ⟨⟨b, hb, ho⟩, -⟩ := h.opened hd
  have hback := hd.held_of_le hlater h.ticket_lt hheld
  rw [hb] at hback
  cases hback
  exact ho

/-- An observation that is admitted is given a ticket. -/
theorem Sound.admits_of_admittedAt (hd : d.Sound) {a : Admission}
    (h : d.admittedAt calls i = some (ticket, a)) : d.Admits calls i ticket a.observation := by
  obtain ⟨session, now, hcall⟩ := hd.call_of_admittedAt h
  obtain ⟨hticket, hissued⟩ := issued_of_admittedAt h
  exact ⟨⟨session, now, hcall⟩, hticket, hissued⟩

end Requests

/-! ## Decisions that are still to be concluded -/

/-- An observation whose decision is not concluded and whose device was not evicted since. -/
structure Pending (d : Desk P) (calls : List Call) (n i ticket : Nat) (o : Wire.Observation) :
    Prop where
  admits : d.Admits calls i ticket o
  later : i < n
  held : ∃ a, (d.after calls n).held ticket = some a
  stays : d.Stays calls o.device i n

/-- The pending observations are those of different devices, and the requests of these are open. -/
structure Orderly (d : Desk P) (calls : List Call) (n : Nat) : Prop where
  awaits {i ticket : Nat} {o : Wire.Observation} :
    d.Pending calls n i ticket o → (d.after calls n).controller.Awaits o.device
  unique {i j ticket ticket' : Nat} {o o' : Wire.Observation} : d.Pending calls n i ticket o →
    d.Pending calls n j ticket' o' → o.device = o'.device → ticket = ticket'

section Orderly

variable {d : Desk P} {calls : List Call} {i n ticket : Nat} {o : Wire.Observation}

theorem Pending.of_le (h : d.Pending calls n i ticket o) (hd : d.Sound) {m : Nat} (hi : i < m)
    (hm : m ≤ n) : d.Pending calls m i ticket o := by
  obtain ⟨a, hheld⟩ := h.held
  have hlt : ticket < (d.after calls m).issued :=
    Nat.lt_of_lt_of_le h.admits.ticket_lt (hd.issued_le hi)
  constructor
  · exact h.admits
  · exact hi
  · exact ⟨a, hd.held_of_le hm hlt hheld⟩
  · intro k hik hkm
    exact h.stays k hik (hkm.trans hm)

theorem Concludes.held (h : d.Concludes calls i n ticket o) (hd : d.Sound) :
    ∃ choice, (d.after calls n).chosen.find? ticket = some choice ∧
      (d.after calls n).held ticket = some choice.admission ∧ choice.admission.observation = o := by
  obtain ⟨choice, hchosen⟩ := h.chosen
  have hheld := held_of_chosen (hd.after n) hchosen
  exact ⟨choice, hchosen, hheld, h.admits.observation_eq hd h.later hheld⟩

theorem Concludes.pending (h : d.Concludes calls i n ticket o) (hd : d.Sound)
    (hstays : d.Stays calls o.device i n) : d.Pending calls n i ticket o := by
  obtain ⟨choice, -, hheld, -⟩ := h.held hd
  exact ⟨h.admits, h.later, ⟨_, hheld⟩, hstays⟩

/-- What a conclusion does by itself: it answers exactly when some request of the device is open. -/
theorem Concludes.decision (h : d.Concludes calls i n ticket o) (hd : d.Sound) :
    (((d.after calls n).decision ticket).isSome = true ↔
        (d.after calls n).controller.Awaits o.device) ∧
      ∀ answer, (d.after calls n).decision ticket = some answer →
        answer.device = o.device ∧ answer.sequence = o.sequence ∧
          ¬(d.after calls (n + 1)).controller.Awaits o.device := by
  obtain ⟨choice, hchosen, -, ho⟩ := h.held hd
  have hstep := hd.stepped_after h.call
  generalize d.after calls (n + 1) = d' at hstep ⊢
  cases hstep with
  | unconcluded hfind =>
      rw [hchosen] at hfind
      cases hfind
  | concluded hfind hc =>
      rw [hchosen] at hfind
      cases hfind
      subst ho
      constructor
      · exact hc.isSome_iff
      · intro answer hanswer
        rw [hanswer] at hc
        exact hc.closes

/-- The request of a pending observation stays open as long as it is not stolen. -/
theorem Orderly.awaits_succ (h : d.Orderly calls n) (hd : d.Sound)
    (hfirst : ∀ k, d.held k = none)
    (hclean : ∀ i ticket o, d.Concludes calls i n ticket o → ¬d.Steals calls o.device i n)
    (hpending : d.Pending calls (n + 1) i ticket o) :
    (d.after calls (n + 1)).controller.Awaits o.device := by
  obtain heq | hlt := Nat.eq_or_lt_of_le (Nat.le_of_lt_succ hpending.later)
  · subst heq
    exact (hpending.admits.opened hd).2.2
  · have hbefore := hpending.of_le hd hlt (Nat.le_succ n)
    have hopen := h.awaits hbefore
    cases hcall : calls[n]? with
    | none =>
        rw [after_succ_of_none hcall]
        exact hopen
    | some call =>
        have hstep := hd.stepped_after hcall
        obtain hstill | hgone | ⟨k, choice, rfl, hchosen, hdevice⟩ :=
          hstep.awaits_cases (hd.after n) hopen
        · exact hstill
        · exact absurd (hpending.stays (n + 1) hpending.later (Nat.le_refl _)) hgone
        · -- The concluded ticket is that of a pending observation for the same device, so it is
          -- this one; but this one is still held afterwards.
          have hheld := held_of_chosen (hd.after n) hchosen
          obtain ⟨j, hj, hadmitted⟩ := hd.admittedAt_of_held hfirst hheld
          have hconcludes : d.Concludes calls j n k choice.admission.observation :=
            ⟨hd.admits_of_admittedAt hadmitted, hj, hcall, choice, hchosen⟩
          have hstays : d.Stays calls choice.admission.observation.device j n := by
            by_contra hnot
            rw [← hdevice] at hopen
            exact hclean j k _ hconcludes ⟨hnot, hopen⟩
          have hticket : k = ticket := h.unique (hconcludes.pending hd hstays) hbefore hdevice
          obtain ⟨a, ha⟩ := hpending.held
          have hnone := hstep.held_concluded (hd.after n) hchosen
          rw [hticket, ha] at hnone
          cases hnone

/-- An observation whose device waits already is not given a ticket. -/
theorem Orderly.not_admits (h : d.Orderly calls n) (hd : d.Sound) {ticket' : Nat}
    {o' : Wire.Observation} (hpending : d.Pending calls n i ticket o)
    (hdevice : o.device = o'.device) : ¬d.Admits calls n ticket' o' := by
  intro hadmits
  have hclosed := (hadmits.opened hd).2.1
  rw [← hdevice] at hclosed
  exact hclosed (h.awaits hpending)

theorem Orderly.succ (h : d.Orderly calls n) (hd : d.Sound) (hfirst : ∀ k, d.held k = none)
    (hclean : ∀ i ticket o, d.Concludes calls i n ticket o → ¬d.Steals calls o.device i n) :
    d.Orderly calls (n + 1) := by
  constructor
  · intro i ticket o hpending
    exact h.awaits_succ hd hfirst hclean hpending
  · intro i j ticket ticket' o o' hpending hpending' hdevice
    obtain hi | hi := Nat.eq_or_lt_of_le (Nat.le_of_lt_succ hpending.later)
    · obtain hj | hj := Nat.eq_or_lt_of_le (Nat.le_of_lt_succ hpending'.later)
      · rw [hpending.admits.ticket_eq, hpending'.admits.ticket_eq, hi, hj]
      · subst hi
        have hbefore := hpending'.of_le hd hj (Nat.le_succ i)
        exact absurd hpending.admits (h.not_admits hd hbefore hdevice.symm)
    · have hbefore := hpending.of_le hd hi (Nat.le_succ n)
      obtain hj | hj := Nat.eq_or_lt_of_le (Nat.le_of_lt_succ hpending'.later)
      · subst hj
        exact absurd hpending'.admits (h.not_admits hd hbefore hdevice)
      · exact h.unique hbefore (hpending'.of_le hd hj (Nat.le_succ n)) hdevice

/-- A run in which nothing is stolen is orderly at every moment. -/
theorem Sound.orderly (hd : d.Sound) (hfirst : ∀ k, d.held k = none)
    (hclean : ∀ i n ticket o, d.Concludes calls i n ticket o → ¬d.Steals calls o.device i n)
    (n : Nat) : d.Orderly calls n := by
  induction n with
  | zero =>
      constructor
      · intro i ticket o hpending
        exact absurd hpending.later (Nat.not_lt_zero i)
      · intro i j ticket ticket' o o' hpending
        exact absurd hpending.later (Nat.not_lt_zero i)
  | succ n ih => exact ih.succ hd hfirst fun i => hclean i n

end Orderly

/-- Every answer is for the observation whose decision is concluded. All conclusions of a run close
their own requests exactly when none of them steals the request of a device that was evicted and
waits again. -/
theorem conclusions_close_own_iff {config : Config} {policy : P} {c : Controller P}
    (h : ofPolicy config policy = .ok c) (calls : List Call) :
    (∀ i n ticket o answer, (start c).Concludes calls i n ticket o →
        ((start c).after calls n).decision ticket = some answer →
        answer.device = o.device ∧ answer.sequence = o.sequence) ∧
      ((∀ i n ticket o, (start c).Concludes calls i n ticket o →
          (start c).ClosesOwn calls i n ticket o) ↔
        ∀ i n ticket o, (start c).Concludes calls i n ticket o →
          ¬(start c).Steals calls o.device i n) := by
  have hd : (start c).Sound := sound_of_ofPolicy h
  refine ⟨?_, ?_, ?_⟩
  · intro i n ticket o answer hconcludes hanswer
    obtain ⟨hdevice, hsequence, -⟩ := (hconcludes.decision hd).2 answer hanswer
    exact ⟨hdevice, hsequence⟩
  · rintro hown i n ticket o hconcludes ⟨hnot, hopen⟩
    apply hnot
    have hsome := (hconcludes.decision hd).1.mpr hopen
    exact (hown i n ticket o hconcludes).answered_iff.mp hsome
  · intro hclean i n ticket o hconcludes
    have horderly (m : Nat) : (start c).Orderly calls m := hd.orderly (fun k => rfl) hclean m
    have hdecision := hconcludes.decision hd
    have hstays (hsome : (((start c).after calls n).decision ticket).isSome = true) :
        (start c).Stays calls o.device i n := by
      by_contra hnot
      exact hclean i n ticket o hconcludes ⟨hnot, hdecision.1.mp hsome⟩
    constructor
    · constructor
      · exact hstays
      · intro hstay
        apply hdecision.1.mpr
        exact (horderly n).awaits (hconcludes.pending hd hstay)
    · intro answer hanswer
      obtain ⟨hdevice, hsequence, hclosed⟩ := hdecision.2 answer hanswer
      have hpending := hconcludes.pending hd (hstays (by rw [hanswer]; rfl))
      refine ⟨hdevice, hsequence, ?_, hclosed⟩
      intro m hi hm
      exact (horderly m).awaits (hpending.of_le hd hi hm)

/-- A report of one and the same device. -/
def report (sequence : UInt64) : Wire.Observation := ⟨⟨"ed-1"⟩, none, .missing, some sequence⟩

/-- The device reports through two sessions, the first of which ends in between. Both reports are
admitted before one is decided. -/
def lateRun : List Call :=
  [.opened, .opened, .accept (.uniform 1) (report 1) 0, .closed (.uniform 1),
    .accept (.uniform 2) (report 2) 0, .prepare 0 .prompt, .conclude 0, .prepare 1 .prompt,
    .conclude 1]

theorem conclusions_close_own_iff_lateRun :
    ∃ c, ofPolicy .standard (Scripted.create 30 [.ofNat 4, .ofNat 9]) = .ok c ∧
      (∀ i n ticket o answer, (start c).Concludes lateRun i n ticket o →
          ((start c).after lateRun n).decision ticket = some answer →
          answer.device = o.device ∧ answer.sequence = o.sequence) ∧
        ((∀ i n ticket o, (start c).Concludes lateRun i n ticket o →
            (start c).ClosesOwn lateRun i n ticket o) ↔
          ∀ i n ticket o, (start c).Concludes lateRun i n ticket o →
            ¬(start c).Steals lateRun o.device i n) := by
  have h : ofPolicy .standard (Scripted.create 30 [.ofNat 4, .ofNat 9]) = .ok _ := rfl
  exact ⟨_, h, conclusions_close_own_iff h lateRun⟩

/-- The decision for the first report is answered although its device was evicted. The one for the
second report is not answered although its device was not. -/
theorem first_report_steals_request :
    ∃ c, ofPolicy .standard (Scripted.create 30 [.ofNat 4, .ofNat 9]) = .ok c ∧
      ((start c).Concludes lateRun 2 6 0 (report 1) ∧
        ¬(start c).ClosesOwn lateRun 2 6 0 (report 1)) ∧
      (start c).Concludes lateRun 4 8 1 (report 2) ∧
        ¬(start c).ClosesOwn lateRun 4 8 1 (report 2) := by
  refine ⟨_, rfl, ⟨?_, ?_⟩, ?_, ?_⟩
  · exact ⟨⟨⟨_, _, rfl⟩, rfl, rfl⟩, by decide, rfl, _, rfl⟩
  · intro hown
    have hstays := hown.answered_iff.mp rfl
    exact Bool.false_ne_true (hstays 4 (by decide) (by decide))
  · exact ⟨⟨⟨_, _, rfl⟩, rfl, rfl⟩, by decide, rfl, _, rfl⟩
  · intro hown
    apply Bool.false_ne_true
    apply hown.answered_iff.mpr
    intro m hm hle
    have hm : m = 5 ∨ m = 6 ∨ m = 7 ∨ m = 8 := by omega
    rcases hm with rfl | rfl | rfl | rfl <;> rfl

end LinkTuner.Desk

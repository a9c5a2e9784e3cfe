import LinkTuner.Proofs.Config.Startable
import LinkTuner.Proofs.Controller.Records

/-!
# Every action is one of the catalog

Actions come from three places: the policy draws them, a device reports them, and the first action
of the catalog stands in where nothing else is known. Draws are within the arms and reports are
looked up, so nothing else is ever kept in a record, credited or sent. The policy is only fed
rewards for its arms, refuses none of them, and what is counted as an invalid action is a report.
-/

namespace LinkTuner

open Controller

/-! ## Starting -/

/-- The policy of a configuration has an arm for each action of its catalog. -/
theorem Controller.of_ofConfig {config : Config} {entropy : Random.Gen}
    {c : Controller (Policy Float Random.Gen)} {events : List Event}
    (h : ofConfig config entropy = .ok (c, events)) :
    0 < c.catalog.size ∧ ∃ policy : Policy Float Random.Gen,
      ofPolicy config policy = .ok c ∧ policy.Over c.catalog.size := by
  simp only [ofConfig, bind_eq_ok_iff] at h
  obtain ⟨catalog, hcatalog, policy, hpolicy, built, hbuilt, heq⟩ := h
  cases heq
  obtain ⟨catalog', hcatalog', rfl⟩ := of_ofPolicy hbuilt
  cases hcatalog.symm.trans hcatalog'
  refine ⟨?_, policy, hbuilt, Policy.over_create (mapError_eq_ok_iff.mp hpolicy)⟩
  obtain ⟨hgridded, rfl⟩ := Config.catalog_eq_ok_iff.mp hcatalog
  exact Nat.pos_of_ne_zero hgridded.size_ne_zero

/-! ## Admissions -/

/-- An admission whose actions the catalog knows. -/
structure Admission.Within (a : Admission) (catalog : Catalog) : Prop where
  credited {action : ActionId} : a.credited = some action → action.toNat < catalog.size
  fallback : a.fallback.toNat < catalog.size

/-- What a device was sent is credited, or else what it reports if the catalog knows it. -/
theorem Admission.within_admission {catalog : Catalog} (hpos : 0 < catalog.size)
    (o : Wire.Observation) {last : Option ActionId}
    (hlast : ∀ action, last = some action → action.toNat < catalog.size) :
    (admission catalog o last).Within catalog := by
  have hcredited : ∀ action, (admission catalog o last).credited = some action →
      action.toNat < catalog.size := by
    intro action hsome
    cases last with
    | some assigned => exact hlast action hsome
    | none =>
        have hknown : known catalog o = some action := hsome
        rw [known_eq_filter] at hknown
        simpa [Catalog.contains] using (Option.filter_eq_some_iff.mp hknown).2
  refine ⟨fun hsome => hcredited _ hsome, ?_⟩
  change ((admission catalog o last).credited.getD (.ofNat 0)).toNat < catalog.size
  cases h : (admission catalog o last).credited with
  | none => exact hpos
  | some action => exact hcredited action h

theorem Controller.credited_of_fedWith {w : Weights Float} {a : Admission} {action : ActionId}
    {r : Reward Float} (h : fedWith w a = some (action, r)) : a.credited = some action := by
  obtain ⟨credited, hcredited, hr⟩ := Option.bind_eq_some_iff.mp h
  obtain ⟨reward, -, heq⟩ := Option.map_eq_some_iff.mp hr
  cases heq
  exact hcredited

/-! ## Runs -/

namespace Desk

variable {P : Type} [Learner P] {d : Desk P} {ok : P → Prop} {catalog : Catalog}

/-- A desk that keeps actions of the catalog only, with a policy of which `ok` holds. -/
structure Within (ok : P → Prop) (catalog : Catalog) (d : Desk P) : Prop where
  catalog_eq : d.controller.catalog = catalog
  policy : ok d.controller.owner.policy
  record {device : DeviceId} {r : Record} {action : ActionId} :
    d.record? device = some r → r.action = some action → action.toNat < catalog.size
  held {ticket : Nat} {a : Admission} : d.held ticket = some a → a.Within catalog
  chosen {ticket : Nat} {choice : Choice} :
    d.chosen.find? ticket = some choice → choice.action.toNat < catalog.size

theorem within_start {config : Config} {policy : P} {c : Controller P}
    (h : ofPolicy config policy = .ok c) (hok : ok policy) : Within ok c.catalog (start c) := by
  obtain ⟨catalog, -, rfl⟩ := of_ofPolicy h
  constructor
  · rfl
  · exact hok
  · intro device r action hfind
    cases hfind
  · intro ticket a hheld
    cases hheld
  · intro ticket choice hchosen
    cases hchosen

namespace Within

/-- What the policy is fed is for an arm, so it is not refused and an arm is drawn. -/
theorem policy_step (h : Within ok catalog d) (hkeeps : Learner.KeepsTo catalog.size ok)
    {a : Admission} {ticket : Nat} (hfind : d.waiting.find? ticket = some a) :
    (Owner.feed d.controller.owner.policy (fedWith d.controller.weights a)).1 = none ∧
      ok (d.controller.owner.step (fedWith d.controller.weights a)).2.policy ∧
      ∀ drawn, (d.controller.owner.step (fedWith d.controller.weights a)).1 = some drawn →
        drawn.action.toNat < catalog.size ∧ drawn.refused = none := by
  have hheld : d.held ticket = some a := by simp [Desk.held, hfind]
  have hfed : ∀ action r, fedWith d.controller.weights a = some (action, r) →
      action.toNat < catalog.size := by
    intro action r heq
    exact (h.held hheld).credited (credited_of_fedWith heq)
  exact ⟨(Owner.feed_of_keepsTo hkeeps h.policy hfed).1,
    Owner.step_of_keepsTo hkeeps h.policy hfed⟩

/-- The action that is chosen for a ticket is drawn or is the fallback of its admission. No reward
is refused, so choosing counts no invalid action. -/
theorem prepared (h : Within ok catalog d) (hkeeps : Learner.KeepsTo catalog.size ok)
    {ticket : Nat} {a : Admission} {timing : Timing} {choice : Choice} {c : Controller P}
    (hfind : d.waiting.find? ticket = some a) (hc : Prepared d.controller a timing choice c) :
    choice.action.toNat < catalog.size ∧
      c.counters.invalidActions = d.controller.counters.invalidActions := by
  obtain ⟨-, -, hdrawn⟩ := h.policy_step hkeeps hfind
  have hheld : d.held ticket = some a := by simp [Desk.held, hfind]
  obtain ⟨-, -, hchosen⟩ := hc
  generalize hpair : (choice.action, choice.how) = pair at hchosen
  have haction : choice.action = pair.1 := congrArg Prod.fst hpair
  rw [haction]
  cases hchosen with
  | fallback hmissed => exact ⟨(h.held hheld).fallback, rfl⟩
  | drawn hprompt hsome =>
      obtain ⟨hlt, hrefused⟩ := hdrawn _ hsome
      refine ⟨hlt, ?_⟩
      simp [count, hrefused]

/-- The record that a device has after a call knows an action of the catalog, if any. -/
theorem record_step (h : Within ok catalog d) (hd : d.Sound) (call : Call) {device : DeviceId}
    {r : Record} {action : ActionId} (hfind : (d.step call).record? device = some r)
    (haction : r.action = some action) : action.toNat < catalog.size := by
  have hrecorded := hd.recorded call hfind
  generalize d.admittedFor device call = admitted at hrecorded
  generalize d.sentTo device call = sent at hrecorded
  cases hrecorded with
  | kept hbefore hreport hanswer => exact h.record hbefore haction
  | duplicate hdevice hbefore hphase => exact h.record hbefore haction
  | admitted hdevice hbefore hphase =>
      obtain hbefore | ⟨-, rfl⟩ := hbefore
      · exact h.record hbefore haction
      · cases haction
  | answered hchosen hdevice hbefore hphase =>
      cases haction
      exact h.chosen hchosen

/-- An admission credits an action of the catalog, if any, and falls back on one. -/
theorem admittedBy (h : Within ok catalog d) (hd : d.Sound) (hpos : 0 < catalog.size)
    {call : Call} {ticket : Nat} {a : Admission}
    (hadmitted : d.admittedBy call = some (ticket, a)) : a.Within catalog := by
  obtain ⟨session, o, now, before, -, -, rfl, -, hbefore, -⟩ := hd.of_admittedBy hadmitted
  rw [h.catalog_eq]
  apply Admission.within_admission hpos
  intro action haction
  obtain hbefore | ⟨-, rfl⟩ := hbefore
  · exact h.record hbefore haction
  · cases haction

/-- An answer carries an action of the catalog. -/
theorem sentBy (h : Within ok catalog d) (hd : d.Sound) {call : Call} {ticket : Nat}
    {answer : Wire.Decision} (hsent : d.sentBy call = some (ticket, answer)) :
    answer.action.toNat < catalog.size := by
  obtain ⟨choice, before, since, -, hchosen, rfl, -⟩ := hd.of_sentBy hsent
  exact h.chosen hchosen

/-- One call keeps to the catalog. -/
theorem step (h : Within ok catalog d) (hkeeps : Learner.KeepsTo catalog.size ok) (hd : d.Sound)
    (hpos : 0 < catalog.size) (call : Call) : Within ok catalog (d.step call) := by
  have hstep := stepped hd.registry call
  constructor
  · exact hstep.settings_eq.1.trans h.catalog_eq
  · obtain howner | ⟨-, howner⟩ | ⟨ticket, timing, a, -, hfind, -, -, howner⟩ := hstep.owner_cases
    · rw [howner]
      exact h.policy
    · rw [howner]
      exact h.policy
    · rw [howner]
      exact (h.policy_step hkeeps hfind).2.1
  · intro device r action
    exact h.record_step hd call
  · intro ticket a hheld
    obtain hbefore | hadmitted := hd.held_before call hheld
    · exact h.held hbefore
    · exact h.admittedBy hd hpos hadmitted
  · intro ticket choice hchosen
    obtain hbefore | ⟨timing, a, c, -, hfind, hc⟩ := hstep.chosen_cases hchosen
    · exact h.chosen hbefore
    · exact (h.prepared hkeeps hfind hc).1

/-- What a call counts as invalid is an action that an admitted observation reports. -/
theorem invalidActions_step (h : Within ok catalog d) (hkeeps : Learner.KeepsTo catalog.size ok)
    (hd : d.Sound) (call : Call) :
    (d.step call).controller.counters.invalidActions =
      d.controller.counters.invalidActions +
        (d.admittedBy call).toList.countP fun p => strays catalog p.2.observation := by
  cases call with
  | accept session o now =>
      have hc := accepted hd.registry session o now
      simp only [Desk.step, controller_enter, Desk.admittedBy]
      generalize (d.controller.accept session o now).result = result at hc ⊢
      generalize (d.controller.accept session o now).controller = c at hc ⊢
      cases hc with
      | full hnew hfull => rfl
      | duplicate hid hfind hphase hnext => rfl
      | admitted hid hfind hphase hnext =>
          simp only [count, Option.map_some, Option.toList_some, List.countP_singleton,
            strangers_eq, h.catalog_eq]
          rfl
  | prepare ticket timing =>
      have hstep := stepped hd.registry (.prepare ticket timing)
      generalize d.step (.prepare ticket timing) = d' at hstep ⊢
      cases hstep with
      | unprepared hfind => rfl
      | prepared hfind hc => exact (h.prepared hkeeps hfind hc).2
  | conclude ticket =>
      have hstep := stepped hd.registry (.conclude ticket)
      generalize d.step (.conclude ticket) = d' at hstep ⊢
      cases hstep with
      | unconcluded hfind => rfl
      | concluded hfind hc =>
          generalize d.decision ticket = answer at hc
          cases hc <;> rfl
  | _ => rfl

/-- A run keeps to the catalog. -/
theorem run (h : Within ok catalog d) (hkeeps : Learner.KeepsTo catalog.size ok) (hd : d.Sound)
    (hpos : 0 < catalog.size) (calls : List Call) : Within ok catalog (d.run calls) := by
  induction calls generalizing d with
  | nil => exact h
  | cons call calls ih => exact ih (h.step hkeeps hd hpos call) (hd.step call)

/-- What a run counts as invalid are the actions that admitted observations report. -/
theorem invalidActions_after (h : Within ok catalog d) (hkeeps : Learner.KeepsTo catalog.size ok)
    (hd : d.Sound) (hpos : 0 < catalog.size) (calls : List Call) (n : Nat) :
    (d.after calls n).controller.counters.invalidActions =
      d.controller.counters.invalidActions +
        (d.admissions calls 0 n).countP fun p => strays catalog p.2.observation := by
  refine after_induction rfl ?step ?rest n
  case step =>
    intro n call hcall ih
    have hadmitted : d.admittedAt calls n = (d.after calls n).admittedBy call := by
      simp [admittedAt, hcall]
    have hcount := (h.run hkeeps hd hpos (calls.take n)).invalidActions_step hkeeps (hd.after n) call
    rw [admissions_succ (Nat.zero_le n), List.countP_append, ← Nat.add_assoc, ← ih, hadmitted]
    exact hcount
  case rest =>
    intro n hcall ih
    rw [admissions_succ (Nat.zero_le n)]
    simpa [admittedAt, hcall] using ih

end Within

/-- Whatever generator a controller starts with, whatever is called in whatever order and whatever
devices report, at every moment all actions are those of the catalog: the ones that records show,
the ones that are credited, fallen back on and sent. No reward that the policy is to be fed is
refused. The invalid actions that are counted are those reported by the observations that were
admitted. -/
theorem actions_in_catalog {config : Config} {entropy : Random.Gen}
    {c : Controller (Policy Float Random.Gen)} {events : List Event}
    (h : ofConfig config entropy = .ok (c, events)) (calls : List Call) (n : Nat) :
    let d := (start c).after calls n
    (∀ device r action, d.record? device = some r → r.action = some action →
        action.toNat < c.catalog.size) ∧
      (∀ ticket a, (start c).admittedAt calls n = some (ticket, a) →
        (∀ action, a.credited = some action → action.toNat < c.catalog.size) ∧
          a.fallback.toNat < c.catalog.size) ∧
      (∀ ticket answer, (start c).sentAt calls n = some (ticket, answer) →
        answer.action.toNat < c.catalog.size) ∧
      (∀ ticket a, d.waiting.find? ticket = some a →
        (Owner.feed d.controller.owner.policy (fedWith d.controller.weights a)).1 = none) ∧
      d.controller.counters.invalidActions =
        ((start c).admissions calls 0 n).countP fun p => strays c.catalog p.2.observation := by
  intro d
  obtain ⟨hpos, policy, hpolicy, hover⟩ := of_ofConfig h
  have hkeeps := Policy.keepsTo (γ := Random.Gen) c.catalog.size
  have hstart := sound_of_ofPolicy hpolicy
  have hfirst := within_start hpolicy hover
  have hd : d.Sound := hstart.after n
  have hwithin : Within (Policy.Over c.catalog.size) c.catalog d :=
    hfirst.run hkeeps hstart hpos (calls.take n)
  refine ⟨fun device r action => hwithin.record, ?_, ?_, ?_, ?_⟩
  · intro ticket a hadmitted
    obtain ⟨call, -, hadmitted⟩ := Option.bind_eq_some_iff.mp hadmitted
    have ha := hwithin.admittedBy hd hpos hadmitted
    exact ⟨fun action => ha.credited, ha.fallback⟩
  · intro ticket answer hsent
    obtain ⟨call, -, hsent⟩ := Option.bind_eq_some_iff.mp hsent
    exact hwithin.sentBy hd hsent
  · intro ticket a hfind
    exact (hwithin.policy_step hkeeps hfind).1
  · have hcount := hfirst.invalidActions_after hkeeps hstart hpos calls n
    have hzero : (start c).controller.counters.invalidActions = 0 := by
      rw [start, (ofPolicy_ok hpolicy).2]
      rfl
    rwa [hzero, Nat.zero_add] at hcount

/-- A device that reports the first number that is no action, and later the greatest number. -/
def strayRun : List Call :=
  [.opened, .accept (.uniform 1) ⟨⟨"meter"⟩, some (.ofNat 30), .missing, none⟩ 0,
    .accept (.uniform 1) ⟨⟨"meter"⟩, some (.ofNat 30), .missing, none⟩ 3, .prepare 0 .late,
    .conclude 0, .accept (.uniform 1) ⟨⟨"meter"⟩, some ⟨4294967295⟩, .missing, none⟩ 9]

/-- The report in between is discarded as a duplicate and not counted. No seed is configured, and
the controller starts with a generator whose key need not be that of any seed. -/
theorem actions_in_catalog_strayRun :
    ∃ c events, ofConfig .standard ⟨.replicate 8 1, 0⟩ = .ok (c, events) ∧
      ((start c).after strayRun 6).controller.counters.invalidActions = 2 := by
  have h : ofConfig .standard ⟨.replicate 8 1, 0⟩ = .ok (_, _) := rfl
  refine ⟨_, _, h, ?_⟩
  rw [(actions_in_catalog h strayRun 6).2.2.2.2]
  decide +kernel

end Desk

end LinkTuner

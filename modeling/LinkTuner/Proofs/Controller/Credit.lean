import LinkTuner.Policy.Scripted
import LinkTuner.Proofs.Controller.Fallback
import LinkTuner.Proofs.Controller.OpenRequests

/-!
# Which action an outcome is credited to

The policy is fed when an action is to be chosen for an admission, if it is served and the command
reaches it before the deadline, and no more than once for each admission. What it is fed was settled
when the observation was admitted: the reward for the outcome, under the action that answered the
device last. Only the first outcome of a device is credited to what it reports. Nothing else feeds
the policy, and an outcome of which it does not hear is lost.
-/

namespace LinkTuner

open Controller

/-! ## Rewards -/

namespace Weights

/-- The reward for an outcome, or the one that says nothing if the outcome cannot be used. -/
def reward (w : Weights Float) (o : Outcome Float) : Reward Float :=
  match w.combine o with
  | .ok r => r
  | .error _ => .uninformative

theorem neutral_of_combine {w : Weights Float} {o : Outcome Float} {r : Reward Float}
    (h : w.combine o = .ok r) : r.neutral = false := by
  unfold combine at h
  split at h
  · cases h
  · cases h
  · split at h
    · cases h
    · split at h
      · cases h
      · cases h
        rfl

theorem reward_of_ok {w : Weights Float} {o : Outcome Float} {r : Reward Float}
    (h : w.combine o = .ok r) : w.reward o = r := by
  simp [reward, h]

theorem reward_of_error {w : Weights Float} {o : Outcome Float} {fault : OutcomeFault Float}
    (h : w.combine o = .error fault) : w.reward o = .uninformative := by
  simp [reward, h]

/-- The reward says nothing exactly when the outcome cannot be used. -/
theorem neutral_reward_iff (w : Weights Float) (o : Outcome Float) :
    (w.reward o).neutral = true ↔ ∃ fault, w.combine o = .error fault := by
  cases h : w.combine o with
  | ok r => simp [reward_of_ok h, neutral_of_combine h]
  | error fault => simp [reward_of_error h, Reward.uninformative]

end Weights

/-- What an admission brings: the reward for its outcome under the action that it credits. -/
def Admission.update (a : Admission) (w : Weights Float) : Option (ActionId × Reward Float) :=
  a.credited.map fun action => (action, w.reward a.observation.outcome)

theorem Controller.fedWith_eq (w : Weights Float) (a : Admission) : fedWith w a = a.update w := by
  unfold fedWith rewarded Admission.update
  cases a.credited with
  | none => rfl
  | some action =>
      cases h : w.combine a.observation.outcome with
      | ok r => simp [Weights.reward_of_ok h]
      | error fault => simp [Weights.reward_of_error h]

namespace Owner

variable {P : Type} [Learner P] {owner : Owner P} {update : Option (ActionId × Reward Float)}

/-- What a policy becomes that is fed an update. One that it refuses leaves it as it was. -/
inductive Fed (policy : P) : Option (ActionId × Reward Float) → P → Prop where
  | nothing : Fed policy none policy
  | accepted {action : ActionId} {reward : Reward Float} {next : P}
      (h : Learner.update policy action reward = .ok next) : Fed policy (some (action, reward)) next
  | refused {action : ActionId} {reward : Reward Float} {fault : ActionFault}
      (h : Learner.update policy action reward = .error fault) :
      Fed policy (some (action, reward)) policy

theorem fed_feed (policy : P) (update : Option (ActionId × Reward Float)) :
    Fed policy update (feed policy update).2 := by
  cases update with
  | none => exact .nothing
  | some pair =>
      obtain ⟨action, reward⟩ := pair
      cases h : Learner.update policy action reward with
      | ok next => simpa [feed, h] using Fed.accepted h
      | error fault => simpa [feed, h] using Fed.refused h

/-- The owner once it has drawn from a policy. It stops where there is nothing to draw from. -/
def drawing (policy : P) : Owner P :=
  (Learner.select policy).elim ⟨policy, false⟩ fun drawn => ⟨drawn.2, true⟩

/-- A policy that is served is fed the update first, and then drawn from. -/
theorem exists_fed_of_serving (h : owner.serving = true)
    (update : Option (ActionId × Reward Float)) :
    ∃ fed, Fed owner.policy update fed ∧ (owner.step update).2 = drawing fed := by
  refine ⟨_, fed_feed owner.policy update, ?_⟩
  simp only [step, h, if_true, drawing]
  cases Learner.select (feed owner.policy update).2 <;> rfl

theorem serving_step (h : (owner.step update).1 ≠ none) :
    (owner.step update).2.serving = true := by
  obtain ⟨drawn, hdrawn⟩ := Option.ne_none_iff_exists'.mp h
  have hserving := serving_of_step hdrawn
  simp only [step, hserving, if_true] at hdrawn ⊢
  split at hdrawn
  · rfl
  · cases hdrawn

end Owner

namespace Desk

variable {P : Type} [Learner P]

/-! ## Feeding -/

/-- The admission for which a call feeds the policy, with its ticket. It takes a policy that is
served, and a command that reaches it. -/
def fedBy (d : Desk P) : Call → Option (Nat × Admission)
  | .prepare ticket timing =>
    if d.controller.owner.serving && timing.arrives then
      (d.waiting.find? ticket).map fun a => (ticket, a)
    else none
  | _ => none

/-- The admission for which the call in place `n` feeds the policy. -/
def fedAt (d : Desk P) (calls : List Call) (n : Nat) : Option (Nat × Admission) :=
  calls[n]?.bind (d.after calls n).fedBy

/-- In place `n` an action is to be chosen for an admission. -/
structure Chooses (d : Desk P) (calls : List Call) (n ticket : Nat) (timing : Timing)
    (a : Admission) : Prop where
  call : calls[n]? = some (.prepare ticket timing)
  waiting : (d.after calls n).waiting.find? ticket = some a

section

variable {d : Desk P} {calls : List Call} {m n ticket : Nat} {a b : Admission}
  {timing timing' : Timing}

theorem Chooses.fedAt (h : d.Chooses calls n ticket timing a)
    (hserving : (d.after calls n).controller.owner.serving = true)
    (harrives : timing.arrives = true) : d.fedAt calls n = some (ticket, a) := by
  simp [Desk.fedAt, h.call, fedBy, hserving, harrives, h.waiting]

theorem of_fedAt (h : d.fedAt calls n = some (ticket, a)) :
    (d.after calls n).controller.owner.serving = true ∧
      ∃ timing, timing.arrives = true ∧ d.Chooses calls n ticket timing a := by
  obtain ⟨call, hcall, hfed⟩ := Option.bind_eq_some_iff.mp h
  cases call with
  | prepare k timing =>
      simp only [fedBy] at hfed
      split at hfed
      case isTrue hreached =>
        obtain ⟨hserving, harrives⟩ := Bool.and_eq_true_iff.mp hreached
        obtain ⟨a', hfind, heq⟩ := Option.map_eq_some_iff.mp hfed
        cases heq
        exact ⟨hserving, timing, harrives, hcall, hfind⟩
      case isFalse => cases hfed
  | _ => cases hfed

/-- The policy makes its step with what the admission brings. -/
theorem Sound.owner_of_fedAt (hd : d.Sound) (h : d.fedAt calls n = some (ticket, a)) :
    (d.after calls (n + 1)).controller.owner =
      ((d.after calls n).controller.owner.step (a.update d.controller.weights)).2 := by
  obtain ⟨-, timing, harrives, hchooses⟩ := of_fedAt h
  have hstep := hd.stepped_after hchooses.call
  rw [← (hd.settings_after calls n).2, ← fedWith_eq]
  generalize d.after calls (n + 1) = d' at hstep ⊢
  cases hstep with
  | unprepared hnone => cases hnone.symm.trans hchooses.waiting
  | prepared hsome hc =>
      cases hsome.symm.trans hchooses.waiting
      rw [← receive_of_arrives _ harrives]
      exact hc.owner_eq

/-- A call that feeds nothing leaves the policy as it was. -/
theorem Sound.policy_of_fedAt_none (hd : d.Sound) (h : d.fedAt calls n = none) :
    (d.after calls (n + 1)).controller.owner.policy =
      (d.after calls n).controller.owner.policy := by
  cases hcall : calls[n]? with
  | none => rw [after_succ_of_none hcall]
  | some call =>
      obtain howner | ⟨-, howner⟩ | ⟨k, timing, a, rfl, hfind, hserving, harrives, -⟩ :=
        (hd.stepped_after hcall).owner_cases
      · rw [howner]
      · rw [howner]
      · cases h.symm.trans (Chooses.fedAt ⟨hcall, hfind⟩ hserving harrives)

/-- The policy is served as long as it is not stopped and every draw succeeds. -/
theorem Sound.serving_after (hd : d.Sound) (hserving : d.controller.owner.serving = true)
    (hstop : ∀ m < n, calls[m]? ≠ some .shutdown)
    (hdraws : ∀ m < n, ∀ ticket a, d.fedAt calls m = some (ticket, a) →
      ((d.after calls m).controller.owner.step (a.update d.controller.weights)).1 ≠ none) :
    (d.after calls n).controller.owner.serving = true := by
  revert hstop hdraws
  refine after_induction ?start ?step ?rest n
  case start => exact fun _ _ => hserving
  case step =>
    intro n call hcall ih hstop hdraws
    have hbefore := ih (fun m hm => hstop m (Nat.lt_succ_of_lt hm))
      (fun m hm => hdraws m (Nat.lt_succ_of_lt hm))
    obtain howner | ⟨rfl, -⟩ | ⟨k, timing, a, rfl, hfind, -, harrives, howner⟩ :=
      (stepped (hd.after n).registry call).owner_cases
    · rw [howner]
      exact hbefore
    · exact absurd hcall (hstop n (Nat.lt_succ_self n))
    · have hdraw := hdraws n (Nat.lt_succ_self n) k a
        (Chooses.fedAt ⟨hcall, hfind⟩ hbefore harrives)
      rw [howner, fedWith_eq, (hd.settings_after calls n).2]
      exact Owner.serving_step hdraw
  case rest =>
    intro n hcall ih hstop hdraws
    exact ih (fun m hm => hstop m (Nat.lt_succ_of_lt hm))
      (fun m hm => hdraws m (Nat.lt_succ_of_lt hm))

/-! ## Once for each admission -/

/-- A ticket for which an action was to be chosen does not wait again. -/
theorem Sound.waiting_of_chooses (hd : d.Sound) (h : d.Chooses calls m ticket timing a)
    (hlt : m < n) : (d.after calls n).waiting.find? ticket = none := by
  have hissued : ticket < (d.after calls m).issued := (hd.after m).waiting_lt h.waiting
  refine after_induction_from ?start ?step (fun _ _ _ ih => ih) n hlt
  case start =>
    rw [after_succ h.call]
    exact (held_prepare _ ticket timing).1
  case step =>
    intro n call hle hcall ih
    cases hwaiting : ((d.after calls n).step call).waiting.find? ticket with
    | none => rfl
    | some b =>
        obtain hbefore | heq := (stepped (hd.after n).registry call).waiting_cases hwaiting
        · rw [ih] at hbefore
          cases hbefore
        · have hissued' : (d.after calls m).issued ≤ (d.after calls n).issued :=
            hd.issued_le (Nat.le_of_lt hle)
          omega

/-- An action is to be chosen once for each ticket. -/
theorem Sound.chooses_unique (hd : d.Sound) (hm : d.Chooses calls m ticket timing a)
    (hn : d.Chooses calls n ticket timing' b) : m = n := by
  obtain hlt | rfl | hgt := Nat.lt_trichotomy m n
  · cases (hd.waiting_of_chooses hm hlt).symm.trans hn.waiting
  · rfl
  · cases (hd.waiting_of_chooses hn hgt).symm.trans hm.waiting

/-- A choice that was made was to be made at some place before. -/
theorem Sound.chooses_of_chosen (hd : d.Sound) (hfirst : ∀ k, d.chosen.find? k = none)
    {choice : Choice} (hchosen : (d.after calls n).chosen.find? ticket = some choice) :
    ∃ m < n, ∃ timing c, d.Chooses calls m ticket timing choice.admission ∧
      Prepared (d.after calls m).controller choice.admission timing choice c := by
  revert hchosen
  refine after_induction ?start ?step ?rest n
  case start =>
    intro hchosen
    rw [hfirst ticket] at hchosen
    cases hchosen
  case step =>
    intro n call hcall ih hchosen
    obtain hbefore | ⟨timing, a, c, rfl, hfind, hc⟩ :=
      (stepped (hd.after n).registry call).chosen_cases hchosen
    · obtain ⟨m, hlt, hchooses⟩ := ih hbefore
      exact ⟨m, Nat.lt_succ_of_lt hlt, hchooses⟩
    · obtain rfl := hc.admission
      exact ⟨n, Nat.lt_succ_self n, timing, c, ⟨hcall, hfind⟩, hc⟩
  case rest =>
    intro n hcall ih hchosen
    obtain ⟨m, hlt, hchooses⟩ := ih hchosen
    exact ⟨m, Nat.lt_succ_of_lt hlt, hchooses⟩

/-- In the places from `s` up to `e` a device is registered: its first outcome is credited to what
it reports, and each later one to the action of the answer to the observation before. -/
structure CreditsLast (d : Desk P) (calls : List Call) (device : DeviceId) (s e : Nat) : Prop where
  first {ticket : Nat} {a : Admission} :
    (d.admissionsOf calls device s e)[0]? = some (ticket, a) →
      a.credited = a.observation.previous.filter d.controller.catalog.contains
  later {k ticket : Nat} {a : Admission} :
    (d.admissionsOf calls device s e)[k + 1]? = some (ticket, a) →
      ∃ earlier answer, (d.admissionsOf calls device s e)[k]? = some earlier ∧
        (d.answersOf calls device s e)[k]? = some (earlier.1, answer) ∧
        a.credited = some answer.action
  fed {k m ticket : Nat} {a b : Admission} :
    (d.admissionsOf calls device s e)[k]? = some (ticket, a) →
      d.fedAt calls m = some (ticket, b) → b = a

/-- The policy is fed in place `m` what an admission brings, once, and then drawn from. The
admission was made before, for one observation. -/
structure FeedsOnce (d : Desk P) (calls : List Call) (m ticket : Nat) (a : Admission) : Prop where
  owner_eq : (d.after calls (m + 1)).controller.owner =
    ((d.after calls m).controller.owner.step (a.update d.controller.weights)).2
  fed : ∃ fed, Owner.Fed (d.after calls m).controller.owner.policy (a.update d.controller.weights)
      fed ∧ (d.after calls (m + 1)).controller.owner = Owner.drawing fed
  admitted : ∃ i < m, (∃ session now, calls[i]? = some (.accept session a.observation now)) ∧
    d.admittedAt calls i = some (ticket, a) ∧
    ∀ j b, d.admittedAt calls j = some (ticket, b) → j = i
  once {n : Nat} {b : Admission} : d.fedAt calls n = some (ticket, b) → n = m

/-- An action for an admission is to be chosen in place `m`. The policy is fed for it there if it is
served and the command reaches it, and else never: then the action is the fallback. -/
structure FeedsOrFallsBack (d : Desk P) (calls : List Call) (m ticket : Nat) (timing : Timing)
    (a : Admission) (action : ActionId) : Prop where
  chooses : d.Chooses calls m ticket timing a
  fed : (d.after calls m).controller.owner.serving = true → timing.arrives = true →
    d.fedAt calls m = some (ticket, a)
  lost : (d.after calls m).controller.owner.serving = false ∨ timing.arrives = false →
    action = a.fallback ∧ ∀ n b, d.fedAt calls n ≠ some (ticket, b)

/-- An admission for which an action is to be chosen was made before, for one observation. -/
theorem Sound.admitted_of_chooses (hd : d.Sound) (hfirst : ∀ k, d.held k = none)
    (h : d.Chooses calls m ticket timing a) :
    ∃ i < m, (∃ session now, calls[i]? = some (.accept session a.observation now)) ∧
      d.admittedAt calls i = some (ticket, a) ∧
      ∀ j b, d.admittedAt calls j = some (ticket, b) → j = i := by
  have hheld : (d.after calls m).held ticket = some a := by simp [held, h.waiting]
  obtain ⟨i, hlt, hadmitted⟩ := hd.admittedAt_of_held hfirst hheld
  exact ⟨i, hlt, hd.call_of_admittedAt hadmitted, hadmitted,
    fun j b hj => hd.admittedAt_unique hj hadmitted⟩

theorem Sound.feedsOnce (hd : d.Sound) (hfirst : ∀ k, d.held k = none)
    (h : d.fedAt calls m = some (ticket, a)) : d.FeedsOnce calls m ticket a := by
  obtain ⟨hserving, timing, -, hchooses⟩ := of_fedAt h
  constructor
  · exact hd.owner_of_fedAt h
  · rw [hd.owner_of_fedAt h]
    exact Owner.exists_fed_of_serving hserving _
  · exact hd.admitted_of_chooses hfirst hchooses
  · intro n b hn
    obtain ⟨-, timing', -, hchooses'⟩ := of_fedAt hn
    exact hd.chooses_unique hchooses' hchooses

/-- Every action that is sent was to be chosen at some place before. -/
theorem Sound.feedsOrFallsBack (hd : d.Sound) (hfirst : ∀ k, d.chosen.find? k = none)
    {answer : Wire.Decision} (hsent : d.sentAt calls n = some (ticket, answer)) :
    ∃ m < n, ∃ timing a, d.FeedsOrFallsBack calls m ticket timing a answer.action := by
  obtain ⟨call, -, hsent⟩ := Option.bind_eq_some_iff.mp hsent
  obtain ⟨choice, -, -, -, hchosen, rfl, -⟩ := (hd.after n).of_sentBy hsent
  obtain ⟨m, hlt, timing, c, hchooses, hprepared⟩ := hd.chooses_of_chosen hfirst hchosen
  refine ⟨m, hlt, timing, choice.admission, hchooses, hchooses.fedAt, fun hmissed => ⟨?_, ?_⟩⟩
  · have hsilent : (d.after calls m).controller.Unanswered choice.admission timing := by
      obtain hgone | hcrowded := hmissed
      · exact unanswered_of_not_serving hgone _ _
      · exact .inl fun hprompt => by simp [hprompt, Timing.arrives] at hcrowded
    exact (hprepared.of_unanswered hsilent).1
  · intro k b hfed
    obtain ⟨hserving, timing', harrives, hchooses'⟩ := of_fedAt hfed
    -- The ticket waits at one place only, so it would be fed there, with the same timing.
    obtain rfl := hd.chooses_unique hchooses' hchooses
    cases hchooses'.call.symm.trans hchooses.call
    obtain hgone | hcrowded := hmissed
    · cases hgone.symm.trans hserving
    · cases hcrowded.symm.trans harrives

theorem Sound.creditsLast (hd : d.Sound) (hfirst : ∀ k, d.held k = none) (hmatched : d.Matched)
    (hkept : d.KeepsUndecided calls) {device : DeviceId} {s e : Nat}
    (hlives : d.Lives calls device s e) : d.CreditsLast calls device s e := by
  obtain ⟨last, opened, halternates⟩ := hd.alternates hmatched hkept hlives
  constructor
  · intro ticket a
    exact halternates.credited_first
  · intro k ticket a
    exact halternates.credited_later
  · intro k m ticket a b hk hfed
    obtain ⟨i, -, -, hi, hunique⟩ := (hd.feedsOnce hfirst hfed).admitted
    obtain ⟨hmem, -⟩ := List.mem_filter.mp (List.mem_of_getElem? hk)
    obtain ⟨j, -, hj⟩ := List.mem_filterMap.mp hmem
    obtain rfl := hunique j a hj
    cases hj.symm.trans hi
    rfl

end

/-- In a run in which no device is evicted while an admission of it is held, the first outcome of a
device since its registration is credited to what it reports, if that is in the catalog, and every
later one to the action of the answer before, whatever is reported. For every admission that is
answered the policy is fed once, if it is served and hears of it before the deadline, and for
nothing else: the reward for its outcome, which says nothing exactly when the outcome cannot be
used. An outcome of which the policy does not hear is lost, and the answer to it is the fallback.
The policy is served until it is stopped or fails to draw. -/
theorem outcomes_credited_to_last_answer {config : Config} {policy : P} {c : Controller P}
    (h : ofPolicy config policy = .ok c) (calls : List Call)
    (hkept : (start c).KeepsUndecided calls) :
    let d := start c
    (∀ device s e, d.Lives calls device s e → d.CreditsLast calls device s e) ∧
      (∀ m ticket a, d.fedAt calls m = some (ticket, a) → d.FeedsOnce calls m ticket a) ∧
      (∀ m, d.fedAt calls m = none →
        (d.after calls (m + 1)).controller.owner.policy =
          (d.after calls m).controller.owner.policy) ∧
      (∀ n ticket answer, d.sentAt calls n = some (ticket, answer) →
        ∃ m < n, ∃ timing a, d.FeedsOrFallsBack calls m ticket timing a answer.action) ∧
      (∀ o, (c.weights.reward o).neutral = true ↔ ∃ fault, c.weights.combine o = .error fault) ∧
      ∀ n, (∀ m < n, calls[m]? ≠ some .shutdown) →
        (∀ m < n, ∀ ticket a, d.fedAt calls m = some (ticket, a) →
          ((d.after calls m).controller.owner.step (a.update c.weights)).1 ≠ none) →
        (d.after calls n).controller.owner.serving = true := by
  intro d
  have hd : d.Sound := sound_of_ofPolicy h
  have hfirst : ∀ k, d.held k = none := fun k => rfl
  refine ⟨fun device s e => hd.creditsLast hfirst (matched_start c) hkept, ?_, ?_, ?_, ?_, ?_⟩
  · intro m ticket a
    exact hd.feedsOnce hfirst
  · intro m
    exact hd.policy_of_fedAt_none
  · intro n ticket answer
    exact hd.feedsOrFallsBack (fun k => rfl)
  · exact c.weights.neutral_reward_iff
  · intro n
    apply hd.serving_after
    obtain ⟨catalog, -, rfl⟩ := of_ofPolicy h
    rfl

/-- Two devices that report in turns. The first one reports an action that does not exist and is
sent the fallback, and then reports another action than that. -/
def creditRun : List Call :=
  [.opened, .accept (.uniform 1) ⟨⟨"meter"⟩, some (.ofNat 40), .missing, none⟩ 0,
    .accept (.uniform 1) ⟨⟨"valve"⟩, some (.ofNat 3), .missing, none⟩ 2, .prepare 0 .late,
    .conclude 0, .accept (.uniform 1) ⟨⟨"meter"⟩, some (.ofNat 9), .missing, none⟩ 5,
    .prepare 2 .prompt, .conclude 2, .prepare 1 .prompt, .conclude 1, .closed (.uniform 1)]

/-- The session ends when all admissions are decided. -/
theorem keepsUndecided_creditRun {c : Controller Scripted}
    (h : ofPolicy .standard (Scripted.create 30 [.ofNat 4]) = .ok c) :
    (start c).KeepsUndecided creditRun := by
  have hd : (start c).Sound := sound_of_ofPolicy h
  have hbuilt : ofPolicy .standard (Scripted.create 30 [.ofNat 4]) = .ok _ := rfl
  cases hbuilt.symm.trans h
  intro n call device hcall hevicts ticket a hheld
  obtain ⟨session, hend⟩ := (hd.after n).evicts_cases hevicts
  have hn : n = 10 := by
    match n with
    | 0 | 1 | 2 | 3 | 4 | 5 | 6 | 7 | 8 | 9 =>
        cases hcall
        simp at hend
    | 10 => rfl
    | k + 11 => simp [creditRun] at hcall
  subst hn
  have hlt : ticket < 3 := (hd.after 10).lt_of_held (Option.isSome_of_mem hheld)
  have hticket : ticket = 0 ∨ ticket = 1 ∨ ticket = 2 := by omega
  rcases hticket with rfl | rfl | rfl <;> cases hheld

/-- The outcome of its second report is credited to the fallback. -/
theorem outcomes_credited_to_last_answer_creditRun :
    ∃ c, ofPolicy .standard (Scripted.create 30 [.ofNat 4]) = .ok c ∧
      (start c).KeepsUndecided creditRun ∧
      ∃ a, (start c).fedAt creditRun 6 = some (2, a) ∧ a.credited = some (.ofNat 0) := by
  have h : ofPolicy .standard (Scripted.create 30 [.ofNat 4]) = .ok _ := rfl
  have hkept := keepsUndecided_creditRun h
  refine ⟨_, h, hkept, _, rfl, ?_⟩
  have hcredits := (outcomes_credited_to_last_answer h creditRun hkept).1 ⟨"meter"⟩ 1 7
  have hlater := (hcredits ⟨Bool.false_ne_true, by
    intro m hm hle
    have hm : m = 2 ∨ m = 3 ∨ m = 4 ∨ m = 5 ∨ m = 6 ∨ m = 7 := by omega
    rcases hm with rfl | rfl | rfl | rfl | rfl | rfl <;> rfl⟩).later (k := 0) rfl
  obtain ⟨earlier, answer, -, hanswer, hcredited⟩ := hlater
  have haction : some answer.action = some (.ofNat 0) :=
    congrArg (Option.map fun b : Nat × Wire.Decision => b.2.action) hanswer.symm
  exact hcredited.trans haction

/-- A meter is sent an action and reports then that it worked at little cost. -/
def unheardRun (between : List Call) (timing : Timing) : List Call :=
  [.accept (.uniform 1) ⟨⟨"meter"⟩, none, .missing, some 1⟩ 0, .prepare 0 .prompt, .conclude 0] ++
    between ++
    [.accept (.uniform 1) ⟨⟨"meter"⟩, some (.ofNat 4), ⟨some 1.0, some 0.02⟩, some 2⟩ 1,
      .prepare 1 timing, .conclude 1]

/-- The second report of the meter is admitted and answered, its outcome can be used and is credited
to the action of the first answer, and yet the script has seen no reward. -/
structure LosesOutcome (d : Desk Scripted) (calls : List Call) : Prop where
  kept : d.KeepsUndecided calls
  lives : d.Lives calls ⟨"meter"⟩ 0 calls.length
  credited : (d.admissionsOf calls ⟨"meter"⟩ 0 calls.length).map (·.2.credited) =
    [none, some (.ofNat 4)]
  answered : (d.answersOf calls ⟨"meter"⟩ 0 calls.length).map (·.2.action) =
    [.ofNat 4, .ofNat 4]
  usable : ∃ r, d.controller.weights.combine ⟨some 1.0, some 0.02⟩ = .ok r
  unseen : (d.run calls).controller.owner.policy.seen = []

/-- An outcome is lost for want of room for the command, among nothing but admissions and decisions,
and after the policy was stopped. -/
theorem unheard_outcome_is_lost :
    ∃ c, ofPolicy .standard (Scripted.create 30 [.ofNat 4]) = .ok c ∧
      (start c).LosesOutcome (unheardRun [] .crowded) ∧
      (start c).LosesOutcome (unheardRun [.shutdown] .prompt) := by
  have h : ofPolicy .standard (Scripted.create 30 [.ofNat 4]) = .ok _ := rfl
  have hd := sound_of_ofPolicy h
  have hends {between : List Call} {timing : Timing} (hbetween : between ⊆ [.shutdown])
      (session : SessionId) : Call.closed session ∉ unheardRun between timing ∧
        Call.evict session ∉ unheardRun between timing := by
    constructor <;> intro hmem <;> simp [unheardRun] at hmem <;> simpa using hbetween hmem
  refine ⟨_, h, ?_, ?_⟩
  all_goals
    refine ⟨hd.keepsUndecided (hends (by simp)), ?_, rfl, rfl, ⟨_, rfl⟩, rfl⟩
    apply hd.lives (hends (by simp))
    · exact Bool.false_ne_true
    · rfl

end Desk

end LinkTuner

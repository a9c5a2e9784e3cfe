import LinkTuner.Proofs.Controller.Run
import Mathlib.Data.List.Intervals

/-!
# Moments of a run

A run is looked at after each of its calls. What it admits and what it sends back is kept in two
lists, each entry with its ticket, so that an admission and its answer can be told to belong
together.
-/

namespace LinkTuner

/-- The sample that a choice brings when its decision is answered. -/
def Controller.Choice.sample (choice : Controller.Choice) : Option (Sample Float) :=
  choice.reward.map fun brought => ⟨choice.admission.observation.device,
    choice.admission.observation.outcome, brought.1, brought.2⟩

namespace Desk

open Controller

variable {P : Type} [Learner P]

/-- The desk after the first `n` calls. -/
def after (d : Desk P) (calls : List Call) (n : Nat) : Desk P := d.run (calls.take n)

section After

variable {d : Desk P} {calls : List Call} {n : Nat}

theorem after_succ_of_none (h : calls[n]? = none) :
    d.after calls (n + 1) = d.after calls n := by
  have hlen : calls.length ≤ n := List.getElem?_eq_none_iff.mp h
  simp [after, List.take_of_length_le hlen, List.take_of_length_le (Nat.le_succ_of_le hlen)]

theorem after_succ {call : Call} (h : calls[n]? = some call) :
    d.after calls (n + 1) = (d.after calls n).step call := by
  simp [after, List.take_add_one, h, run]

theorem Sound.after (hd : d.Sound) (n : Nat) : (d.after calls n).Sound := hd.run _

theorem Sound.stepped_after (hd : d.Sound) {call : Call} (h : calls[n]? = some call) :
    Stepped (d.after calls n) call (d.after calls (n + 1)) := by
  rw [after_succ h]
  exact stepped (hd.after n).registry call

/-- What holds at a moment and is kept by every call holds at every later moment. Past the last call
nothing happens any more. -/
@[elab_as_elim]
theorem after_induction_from {motive : Nat → Desk P → Prop} {m : Nat}
    (start : motive m (d.after calls m))
    (step : ∀ n call, m ≤ n → calls[n]? = some call → motive n (d.after calls n) →
      motive (n + 1) ((d.after calls n).step call))
    (rest : ∀ n, m ≤ n → calls[n]? = none → motive n (d.after calls n) →
      motive (n + 1) (d.after calls n)) (n : Nat) (h : m ≤ n) : motive n (d.after calls n) := by
  induction n, h using Nat.le_induction with
  | base => exact start
  | succ n hle ih =>
      cases hcall : calls[n]? with
      | none =>
          rw [after_succ_of_none hcall]
          exact rest n hle hcall ih
      | some call =>
          rw [after_succ hcall]
          exact step n call hle hcall ih

/-- What holds at first and is kept by every call holds at every moment. -/
@[elab_as_elim]
theorem after_induction {motive : Nat → Desk P → Prop} (start : motive 0 d)
    (step : ∀ n call, calls[n]? = some call → motive n (d.after calls n) →
      motive (n + 1) ((d.after calls n).step call))
    (rest : ∀ n, calls[n]? = none → motive n (d.after calls n) →
      motive (n + 1) (d.after calls n)) (n : Nat) : motive n (d.after calls n) :=
  after_induction_from start (fun n call _ => step n call) (fun n _ => rest n) n (Nat.zero_le n)

end After

/-! ## What a call can change -/

section Stepped

variable {d d' : Desk P} {call : Call}

theorem Stepped.issued_le (h : Stepped d call d') : d.issued ≤ d'.issued := by
  cases h with
  | @accepted session o now result c hc =>
      cases result with
      | none => exact Nat.le_refl _
      | some a => exact Nat.le_succ _
  | _ => exact Nat.le_refl _

/-- The catalog and the weights of the reward never change. -/
theorem Stepped.settings_eq (h : Stepped d call d') :
    d'.controller.catalog = d.controller.catalog ∧
      d'.controller.weights = d.controller.weights := by
  cases h with
  | accepted hc =>
      rw [controller_enter]
      cases hc <;> exact ⟨rfl, rfl⟩
  | prepared hfind hc =>
      have hchosen := hc.chosen
      generalize (Choice.action _, Choice.how _) = pair at hchosen
      cases hchosen <;> exact ⟨rfl, rfl⟩
  | @concluded ticket choice c hfind hc =>
      generalize d.decision ticket = answer at hc
      cases hc <;> exact ⟨rfl, rfl⟩
  | _ => exact ⟨rfl, rfl⟩

/-- The owner of the policy changes when it is stopped, and with the first half of a decision that
reaches it, when the policy is fed what the admission brings. -/
theorem Stepped.owner_cases (h : Stepped d call d') :
    d'.controller.owner = d.controller.owner ∨
      (call = .shutdown ∧
        d'.controller.owner = { d.controller.owner with serving := false }) ∨
      ∃ ticket timing a, call = .prepare ticket timing ∧ d.waiting.find? ticket = some a ∧
        d.controller.owner.serving = true ∧ timing.arrives = true ∧
        d'.controller.owner =
          (d.controller.owner.step (fedWith d.controller.weights a)).2 := by
  cases h with
  | accepted hc =>
      left
      rw [controller_enter]
      cases hc <;> rfl
  | @prepared ticket timing a choice c hfind hc =>
      have howner : (d.advance c ticket choice).controller.owner = _ := hc.owner_eq
      obtain heq | ⟨hserving, harrives, heq⟩ :=
        receive_cases d.controller.owner timing (fedWith d.controller.weights a)
      · exact .inl (howner.trans heq)
      · exact .inr (.inr ⟨ticket, timing, a, rfl, hfind, hserving, harrives, howner.trans heq⟩)
  | @concluded ticket choice c hfind hc =>
      left
      generalize d.decision ticket = answer at hc
      cases hc <;> rfl
  | stopped => exact .inr (.inl ⟨rfl, rfl⟩)
  | _ => exact .inl rfl

/-- A ticket that waits waited before, or is handed out by the call. -/
theorem Stepped.waiting_cases (h : Stepped d call d') {ticket : Nat} {a : Admission}
    (hwaiting : d'.waiting.find? ticket = some a) :
    d.waiting.find? ticket = some a ∨ ticket = d.issued := by
  cases h with
  | @accepted session o now result c hc =>
      cases result with
      | none => exact .inl hwaiting
      | some b =>
          by_cases heq : ticket = d.issued
          · exact .inr heq
          · rw [enter, Index.find?_insert_of_ne _ _ heq] at hwaiting
            exact .inl hwaiting
  | @prepared k timing b choice c hfind hc =>
      by_cases heq : ticket = k
      · subst heq
        rw [advance, Index.find?_erase_self] at hwaiting
        cases hwaiting
      · rw [advance, Index.find?_erase_of_ne _ heq] at hwaiting
        exact .inl hwaiting
  | _ => exact .inl hwaiting

/-- A choice was there before, or is made by the call for a ticket that waits. -/
theorem Stepped.chosen_cases (h : Stepped d call d') {ticket : Nat} {choice : Choice}
    (hchosen : d'.chosen.find? ticket = some choice) :
    d.chosen.find? ticket = some choice ∨
      ∃ timing a c, call = .prepare ticket timing ∧ d.waiting.find? ticket = some a ∧
        Prepared d.controller a timing choice c := by
  cases h with
  | @accepted session o now result c hc =>
      left
      cases result <;> exact hchosen
  | @prepared k timing a choice' c hfind hc =>
      by_cases heq : ticket = k
      · subst heq
        rw [advance, Index.find?_insert_self] at hchosen
        cases hchosen
        exact .inr ⟨timing, a, c, rfl, hfind, hc⟩
      · rw [advance, Index.find?_insert_of_ne _ _ heq] at hchosen
        exact .inl hchosen
  | @concluded k choice' c hfind hc =>
      left
      by_cases heq : ticket = k
      · subst heq
        rw [leave, Index.find?_erase_self] at hchosen
        cases hchosen
      · rwa [leave, Index.find?_erase_of_ne _ heq] at hchosen
  | _ => exact .inl hchosen

end Stepped

theorem Sound.settings_after {d : Desk P} (hd : d.Sound) (calls : List Call) (n : Nat) :
    (d.after calls n).controller.catalog = d.controller.catalog ∧
      (d.after calls n).controller.weights = d.controller.weights := by
  refine after_induction ⟨rfl, rfl⟩ ?_ (fun _ _ ih => ih) n
  intro n call hcall ih
  obtain ⟨hcatalog, hweights⟩ := (stepped (hd.after n).registry call).settings_eq
  exact ⟨hcatalog.trans ih.1, hweights.trans ih.2⟩

/-! ## What a run admits and sends -/

/-- The admission that a call makes, with its ticket. -/
def admittedBy (d : Desk P) : Call → Option (Nat × Admission)
  | .accept session o now =>
    (d.controller.accept session o now).result.map fun a => (d.issued, a)
  | _ => none

/-- The answer that a call sends, with its ticket. -/
def sentBy (d : Desk P) : Call → Option (Nat × Wire.Decision)
  | .conclude ticket => (d.decision ticket).map fun answer => (ticket, answer)
  | _ => none

/-- Only an answer writes to the history, and what its choice brings. -/
theorem Stepped.history_cases {d d' : Desk P} {call : Call} (h : Stepped d call d') :
    d.sentBy call = none ∧ d'.controller.history = d.controller.history ∨
      ∃ ticket choice answer, d.sentBy call = some (ticket, answer) ∧
        d.chosen.find? ticket = some choice ∧ d'.controller.history =
          choice.sample.elim d.controller.history d.controller.history.push := by
  cases h with
  | accepted hc =>
      rw [controller_enter]
      left
      cases hc <;> exact ⟨rfl, rfl⟩
  | prepared hfind hc =>
      left
      have hchosen := hc.chosen
      generalize (Choice.action _, Choice.how _) = pair at hchosen
      cases hchosen <;> exact ⟨rfl, rfl⟩
  | @concluded ticket choice c hfind hc =>
      simp only [sentBy]
      generalize d.decision ticket = answer at hc
      cases hc with
      | gone _ => exact .inl ⟨rfl, rfl⟩
      | closed _ _ _ _ =>
          refine .inr ⟨ticket, choice, _, rfl, hfind, ?_⟩
          cases hreward : choice.reward with
          | none => simp [leave, Choice.sample, hreward]
          | some brought => simp [leave, Choice.sample, hreward]
  | unconcluded hfind => exact .inl ⟨by simp [sentBy, decision, hfind], rfl⟩
  | _ => exact .inl ⟨rfl, rfl⟩

/-- The admission that is made by the call in place `n`. -/
def admittedAt (d : Desk P) (calls : List Call) (n : Nat) : Option (Nat × Admission) :=
  calls[n]?.bind (d.after calls n).admittedBy

/-- The answer that is sent by the call in place `n`. -/
def sentAt (d : Desk P) (calls : List Call) (n : Nat) : Option (Nat × Wire.Decision) :=
  calls[n]?.bind (d.after calls n).sentBy

/-- The admissions made in the places from `s` up to `n`, in their order. -/
def admissions (d : Desk P) (calls : List Call) (s n : Nat) : List (Nat × Admission) :=
  (List.Ico s n).filterMap (d.admittedAt calls)

/-- The answers sent in the places from `s` up to `n`, in their order. -/
def answers (d : Desk P) (calls : List Call) (s n : Nat) : List (Nat × Wire.Decision) :=
  (List.Ico s n).filterMap (d.sentAt calls)

section Journal

variable {d : Desk P} {calls : List Call} {s n : Nat}

/-- An admission is held under its ticket. -/
theorem held_of_admittedBy {call : Call} {ticket : Nat} {a : Admission}
    (h : d.admittedBy call = some (ticket, a)) : (d.step call).held ticket = some a := by
  cases call with
  | accept session o now =>
      obtain ⟨b, hresult, heq⟩ := Option.map_eq_some_iff.mp h
      cases heq
      rw [step, hresult]
      exact held_enter_self d _ a
  | _ => cases h

/-- A ticket that is held stays held until its decision is concluded. -/
theorem Sound.held_step (hd : d.Sound) (call : Call) {ticket : Nat} {a : Admission}
    (hheld : d.held ticket = some a) :
    (d.step call).held ticket = some a ∨
      call = .conclude ticket ∧ ∃ choice, d.chosen.find? ticket = some choice ∧
        choice.admission = a := by
  have hstep := stepped hd.registry call
  generalize d.step call = d' at hstep ⊢
  cases hstep with
  | accepted hc =>
      have hne : ticket ≠ d.issued := by
        rintro rfl
        simp [held, hd.waiting_issued, hd.chosen_issued] at hheld
      rw [held_enter_of_ne hne]
      exact .inl hheld
  | prepared hfind hc =>
      rw [held_advance hfind hc.admission]
      exact .inl hheld
  | @concluded k choice c hfind hc =>
      by_cases heq : ticket = k
      · subst heq
        have hchoice := held_of_chosen hd hfind
        rw [hheld] at hchoice
        exact .inr ⟨rfl, choice, hfind, (Option.some.inj hchoice).symm⟩
      · rw [held_leave_of_ne heq]
        exact .inl hheld
  | _ => exact .inl hheld

/-- A ticket that is held was held before, or its admission is made by the call. -/
theorem Sound.held_before (hd : d.Sound) (call : Call) {ticket : Nat} {a : Admission}
    (hheld : (d.step call).held ticket = some a) :
    d.held ticket = some a ∨ d.admittedBy call = some (ticket, a) := by
  cases call with
  | accept session o now =>
      simp only [Desk.step] at hheld
      simp only [admittedBy]
      cases hresult : (d.controller.accept session o now).result with
      | none =>
          rw [hresult] at hheld
          exact .inl hheld
      | some b =>
          rw [hresult] at hheld
          by_cases heq : ticket = d.issued
          · subst heq
            rw [held_enter_self] at hheld
            cases hheld
            exact .inr rfl
          · rw [held_enter_of_ne heq] at hheld
            exact .inl hheld
  | prepare k timing =>
      left
      simp only [Desk.step] at hheld
      split at hheld
      next => exact hheld
      next hfind =>
        rwa [held_advance hfind (prepared _ _ timing).admission] at hheld
  | conclude k =>
      left
      simp only [Desk.step] at hheld
      split at hheld
      next => exact hheld
      next hfind =>
        by_cases heq : ticket = k
        · subst heq
          rw [held_leave_self hd hfind] at hheld
          cases hheld
        · rwa [held_leave_of_ne heq] at hheld
  | _ => exact .inl hheld

/-- An admission takes the next ticket. -/
theorem issued_of_admittedBy {call : Call} {ticket : Nat} {a : Admission}
    (h : d.admittedBy call = some (ticket, a)) :
    ticket = d.issued ∧ (d.step call).issued = d.issued + 1 := by
  cases call with
  | accept session o now =>
      obtain ⟨b, hresult, heq⟩ := Option.map_eq_some_iff.mp h
      cases heq
      rw [step, hresult]
      exact ⟨rfl, rfl⟩
  | _ => cases h

theorem issued_of_admittedAt {ticket : Nat} {a : Admission}
    (h : d.admittedAt calls n = some (ticket, a)) :
    ticket = (d.after calls n).issued ∧
      (d.after calls (n + 1)).issued = (d.after calls n).issued + 1 := by
  obtain ⟨call, hcall, hadmitted⟩ := Option.bind_eq_some_iff.mp h
  rw [after_succ hcall]
  exact issued_of_admittedBy hadmitted

theorem admissions_succ (h : s ≤ n) :
    d.admissions calls s (n + 1) = d.admissions calls s n ++ (d.admittedAt calls n).toList := by
  cases hat : d.admittedAt calls n <;>
    simp [admissions, List.Ico.succ_top h, List.filterMap_append, hat]

theorem answers_succ (h : s ≤ n) :
    d.answers calls s (n + 1) = d.answers calls s n ++ (d.sentAt calls n).toList := by
  cases hat : d.sentAt calls n <;>
    simp [answers, List.Ico.succ_top h, List.filterMap_append, hat]

/-! ## Tickets at the moments of a run -/

theorem Sound.issued_le (hd : d.Sound) {m : Nat} (h : m ≤ n) :
    (d.after calls m).issued ≤ (d.after calls n).issued := by
  refine after_induction_from (Nat.le_refl _) ?_ (fun _ _ _ ih => ih) n h
  intro n call hle hcall ih
  exact ih.trans (stepped (hd.after n).registry call).issued_le

/-- A ticket that is held now was held at every moment since it was handed out. -/
theorem Sound.held_of_le (hd : d.Sound) {m ticket : Nat} {a : Admission} (h : m ≤ n)
    (hticket : ticket < (d.after calls m).issued) (hheld : (d.after calls n).held ticket = some a) :
    (d.after calls m).held ticket = some a := by
  revert hheld
  refine after_induction_from id ?_ (fun _ _ _ ih => ih) n h
  intro n call hle hcall ih hheld
  obtain hbefore | hadmitted := (hd.after n).held_before call hheld
  · exact ih hbefore
  · have hnew := (issued_of_admittedBy hadmitted).1
    have hissued : (d.after calls m).issued ≤ (d.after calls n).issued := hd.issued_le hle
    omega

/-- A ticket is handed out once. -/
theorem Sound.admittedAt_unique (hd : d.Sound) {m ticket : Nat} {a b : Admission}
    (hm : d.admittedAt calls m = some (ticket, a)) (hn : d.admittedAt calls n = some (ticket, b)) :
    m = n := by
  have hne {i j : Nat} {a b : Admission} (hi : d.admittedAt calls i = some (ticket, a))
      (hj : d.admittedAt calls j = some (ticket, b)) : ¬i < j := by
    intro hlt
    obtain ⟨hticket, hafter⟩ := issued_of_admittedAt hi
    have hle : (d.after calls (i + 1)).issued ≤ (d.after calls j).issued := hd.issued_le hlt
    have heq := (issued_of_admittedAt hj).1
    omega
  exact Nat.le_antisymm (Nat.le_of_not_lt (hne hn hm)) (Nat.le_of_not_lt (hne hm hn))

/-- Where no ticket was held at first, a ticket that is held was handed out in the run. -/
theorem Sound.admittedAt_of_held (hd : d.Sound) (hfirst : ∀ k, d.held k = none) {ticket : Nat}
    {a : Admission} (hheld : (d.after calls n).held ticket = some a) :
    ∃ i < n, d.admittedAt calls i = some (ticket, a) := by
  revert hheld
  refine after_induction ?start ?step ?rest n
  case start =>
    intro hheld
    rw [hfirst ticket] at hheld
    cases hheld
  case step =>
    intro n call hcall ih hheld
    obtain hbefore | hadmitted := (hd.after n).held_before call hheld
    · obtain ⟨i, hlt, hadmitted⟩ := ih hbefore
      exact ⟨i, Nat.lt_succ_of_lt hlt, hadmitted⟩
    · exact ⟨n, Nat.lt_succ_self n, by simp [admittedAt, hcall, hadmitted]⟩
  case rest =>
    intro n hcall ih hheld
    obtain ⟨i, hlt, hadmitted⟩ := ih hheld
    exact ⟨i, Nat.lt_succ_of_lt hlt, hadmitted⟩

end Journal

end Desk

end LinkTuner

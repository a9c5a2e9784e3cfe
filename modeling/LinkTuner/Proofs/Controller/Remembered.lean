import LinkTuner.Proofs.Controller.FiniteRewards
import LinkTuner.Proofs.Controller.Records
import Mathlib.Data.List.DropRight

/-!
# What the history of rewards holds

A reward is kept when its decision is concluded with an answer, whatever chose the action, and only
if the outcome was credited to one. Main statement: at every moment of a run the history holds the
last of the rewards that the answers so far brought, in the order of the answers and as many as
there is room for.
-/

namespace LinkTuner

theorem History.capacity_push (h : History) (s : Sample Float) :
    (h.push s).capacity = h.capacity := by
  unfold push
  split_ifs <;> rfl

/-- There is room for the last of all samples that were pushed. -/
theorem History.samples_push {h : History} {xs : List (Sample Float)}
    (hsamples : h.samples = xs.rtake h.capacity) (s : Sample Float) :
    (h.push s).samples = (xs ++ [s]).rtake h.capacity := by
  have hlength : h.samples.length = min h.capacity xs.length := by
    rw [hsamples, List.rtake, List.length_drop]
    omega
  unfold push
  split_ifs with hzero hfull
  · rw [hsamples, hzero, List.rtake_zero, List.rtake_zero]
  · obtain ⟨n, hn⟩ := Nat.exists_eq_succ_of_ne_zero hzero
    have hdrop : (xs.rtake (n + 1)).drop 1 = xs.rtake n := by
      rw [List.rtake, List.drop_drop, List.rtake]
      congr 1
      omega
    rw [hn, List.rtake_concat_succ, ← hdrop, hsamples, hn]
  · obtain ⟨n, hn⟩ := Nat.exists_eq_succ_of_ne_zero hzero
    have hall : xs.rtake (n + 1) = xs.rtake n := by
      rw [List.rtake, List.rtake]
      congr 1
      omega
    rw [hn, List.rtake_concat_succ, ← hall, hsamples, hn]

/-- The sample of an admission, if its outcome is credited to an action. -/
def Admission.sample (a : Admission) (w : Weights Float) : Option (Sample Float) :=
  a.credited.map fun _ => ⟨a.observation.device, a.observation.outcome,
    w.reward a.observation.outcome, !(w.combine a.observation.outcome).isOk⟩

/-- A sample is marked exactly if its outcome cannot be used. -/
theorem Admission.neutral_of_sample {a : Admission} {w : Weights Float} {s : Sample Float}
    (h : a.sample w = some s) :
    (s.neutral = true ↔ ∃ fault, w.combine s.outcome = .error fault) ∧
      (s.neutral = true → s.reward = .uninformative) := by
  obtain ⟨_, -, rfl⟩ := Option.map_eq_some_iff.mp h
  cases hcombine : w.combine a.observation.outcome with
  | ok r => simp [Except.isOk, Except.toBool]
  | error fault => simp [Except.isOk, Except.toBool, Weights.reward_of_error hcombine]

namespace Desk

open Controller

variable {P : Type} [Learner P]

/-! ## What the answers of a run bring -/

/-- The admission that a run made for a ticket. -/
def admissionOf (d : Desk P) (calls : List Call) (ticket : Nat) : Option Admission :=
  ((d.admissions calls 0 calls.length).find? fun admitted => admitted.1 == ticket).map (·.2)

/-- The samples that the answers before place `n` brought, in the order of the answers. -/
def brought (d : Desk P) (w : Weights Float) (calls : List Call) (n : Nat) :
    List (Sample Float) :=
  (d.answers calls 0 n).filterMap fun sent =>
    (d.admissionOf calls sent.1).bind fun a => a.sample w

variable {d : Desk P} {calls : List Call} {n ticket : Nat} {a : Admission}

theorem Sound.admissionOf_eq (hd : d.Sound) (h : d.admittedAt calls n = some (ticket, a)) :
    d.admissionOf calls ticket = some a := by
  have hmem : (ticket, a) ∈ d.admissions calls 0 calls.length := by
    obtain ⟨call, hcall, -⟩ := Option.bind_eq_some_iff.mp h
    have hlt := (List.getElem?_eq_some_iff.mp hcall).1
    exact List.mem_filterMap.mpr ⟨n, by simpa using hlt, h⟩
  obtain ⟨other, hfound⟩ : ∃ other, (d.admissions calls 0 calls.length).find?
      (fun admitted => admitted.1 == ticket) = some other := by
    rw [← Option.isSome_iff_exists, List.find?_isSome]
    exact ⟨_, hmem, beq_self_eq_true ticket⟩
  obtain ⟨i, -, hi⟩ := List.mem_filterMap.mp (List.mem_of_find?_eq_some hfound)
  have hticket : other.1 = ticket := by simpa using List.find?_some hfound
  obtain ⟨k, b⟩ := other
  obtain rfl : k = ticket := hticket
  obtain rfl := hd.admittedAt_unique hi h
  cases hi.symm.trans h
  simp [admissionOf, hfound]

theorem brought_succ (d : Desk P) (w : Weights Float) (calls : List Call) (n : Nat) :
    d.brought w calls (n + 1) = d.brought w calls n ++
      ((d.sentAt calls n).bind fun sent =>
        (d.admissionOf calls sent.1).bind fun a => a.sample w).toList := by
  rw [brought, brought, answers_succ (Nat.zero_le n), List.filterMap_append]
  cases d.sentAt calls n with
  | none => rfl
  | some sent =>
      cases hsample : (d.admissionOf calls sent.1).bind fun a => a.sample w <;> simp [hsample]

/-! ## What the history holds -/

/-- What a choice brings is the sample of its admission. -/
theorem Sound.sample_of_chosen (hd : d.Sound) (hnone : ∀ k, d.chosen.find? k = none)
    {choice : Choice} (hchosen : (d.after calls n).chosen.find? ticket = some choice) :
    choice.sample = choice.admission.sample d.controller.weights := by
  rw [Choice.sample, hd.reward_of_chosen hnone hchosen, rewarded, Admission.sample]
  cases choice.admission.credited with
  | none => rfl
  | some action =>
      cases hcombine : d.controller.weights.combine choice.admission.observation.outcome <;>
        simp [hcombine, Weights.reward, Except.isOk, Except.toBool]

/-- The admission of an answer was made before. -/
theorem Sound.admittedAt_of_chosen (hd : d.Sound) (hfirst : ∀ k, d.held k = none)
    {choice : Choice} (hchosen : (d.after calls n).chosen.find? ticket = some choice) :
    ∃ i < n, d.admittedAt calls i = some (ticket, choice.admission) :=
  hd.admittedAt_of_held hfirst (held_of_chosen (hd.after n) hchosen)

/-- At every moment the history holds the last samples that were brought. -/
theorem Sound.history_after (hd : d.Sound) (hfirst : ∀ k, d.held k = none)
    (hnone : ∀ k, d.chosen.find? k = none) (hempty : d.controller.history.samples = [])
    (n : Nat) :
    (d.after calls n).controller.history.capacity = d.controller.history.capacity ∧
      (d.after calls n).controller.history.samples =
        (d.brought d.controller.weights calls n).rtake d.controller.history.capacity := by
  refine after_induction ?start ?step ?rest n
  case start => exact ⟨rfl, by simp [hempty, brought, answers]⟩
  case step =>
    intro n call hcall ih
    obtain ⟨hcapacity, hsamples⟩ := ih
    rw [brought_succ, sentAt, hcall, Option.bind_some]
    obtain ⟨hsent, hhistory⟩ | ⟨ticket, choice, answer, hsent, hchosen, hhistory⟩ :=
      (stepped (hd.after n).registry call).history_cases
    · rw [hsent, hhistory]
      simpa using ⟨hcapacity, hsamples⟩
    · obtain ⟨i, -, hadmitted⟩ := hd.admittedAt_of_chosen hfirst hchosen
      rw [hsent, hhistory, Option.bind_some, hd.admissionOf_eq hadmitted, Option.bind_some,
        ← hd.sample_of_chosen hnone hchosen]
      cases choice.sample with
      | none => simpa using ⟨hcapacity, hsamples⟩
      | some s =>
          rw [← hcapacity] at hsamples
          have hpushed := History.samples_push hsamples s
          exact ⟨(History.capacity_push _ s).trans hcapacity, hcapacity ▸ hpushed⟩
  case rest =>
    intro n hcall ih
    have hsent : d.sentAt calls n = none := by simp [sentAt, hcall]
    simpa [brought_succ, hsent] using ih

/-! ## Once for each ticket -/

/-- A ticket is held until it is answered. -/
theorem Sound.held_of_sentAt (hd : d.Sound) {answer : Wire.Decision}
    (h : d.sentAt calls n = some (ticket, answer)) :
    (∃ choice, (d.after calls n).chosen.find? ticket = some choice) ∧
      (d.after calls (n + 1)).held ticket = none := by
  obtain ⟨call, hcall, hsent⟩ := Option.bind_eq_some_iff.mp h
  obtain ⟨choice, -, -, rfl, hchosen, -⟩ := (hd.after n).of_sentBy hsent
  refine ⟨⟨choice, hchosen⟩, ?_⟩
  rw [after_succ hcall, Desk.step, hchosen]
  exact held_leave_self (hd.after n) hchosen _

theorem Sound.sentAt_unique (hd : d.Sound) {m : Nat} {answer other : Wire.Decision}
    (hm : d.sentAt calls m = some (ticket, answer)) (hn : d.sentAt calls n = some (ticket, other)) :
    m = n := by
  have hne {i j : Nat} {answer other : Wire.Decision}
      (hi : d.sentAt calls i = some (ticket, answer))
      (hj : d.sentAt calls j = some (ticket, other)) : ¬i < j := by
    intro hlt
    obtain ⟨⟨choice, hchosen⟩, hreleased⟩ := hd.held_of_sentAt hi
    obtain ⟨⟨choice', hchosen'⟩, -⟩ := hd.held_of_sentAt hj
    have hissued : ticket < (d.after calls (i + 1)).issued :=
      ((hd.after i).chosen_lt hchosen).trans_le (hd.issued_le (Nat.le_succ i))
    have hheld := hd.held_of_le hlt hissued (held_of_chosen (hd.after j) hchosen')
    rw [hreleased] at hheld
    cases hheld
  exact Nat.le_antisymm (Nat.le_of_not_lt (hne hn hm)) (Nat.le_of_not_lt (hne hm hn))

/-- At every moment of every run the history holds, the oldest first, the last of the samples that
the answers so far brought, as many as there is room for. An answer brings the sample of the
admission that was made for its ticket before, which is answered once, if its outcome is credited to
an action. A sample is marked exactly if its outcome cannot be used, and then its reward says
nothing. -/
theorem history_holds_last_samples {config : Config} {policy : P} {c : Controller P}
    (h : ofPolicy config policy = .ok c) (calls : List Call) :
    let d := start c
    let w := config.weights
    (∀ n, (d.after calls n).controller.history.samples =
        (d.brought w calls n).rtake config.historyLength.toNat) ∧
      (∀ n ticket answer, d.sentAt calls n = some (ticket, answer) →
        (∃ i < n, ∃ a, d.admittedAt calls i = some (ticket, a) ∧
          d.admissionOf calls ticket = some a) ∧
        ∀ m other, d.sentAt calls m = some (ticket, other) → m = n) ∧
      ∀ a : Admission, (a.sample w = none ↔ a.credited = none) ∧
        ∀ s, a.sample w = some s →
          (s.neutral = true ↔ ∃ fault, w.combine s.outcome = .error fault) ∧
            (s.neutral = true → s.reward = .uninformative) := by
  intro d w
  have hd : d.Sound := sound_of_ofPolicy h
  have hfirst : ∀ k, d.held k = none := fun _ => rfl
  obtain ⟨catalog, -, hc⟩ := of_ofPolicy h
  have hweights : d.controller.weights = w := by simp only [d, w, start, hc]
  have hcapacity : d.controller.history.capacity = config.historyLength.toNat := by
    simp only [d, start, hc, History.create]
  have hempty : d.controller.history.samples = [] := by simp only [d, start, hc, History.create]
  refine ⟨fun n => ?_, fun n ticket answer hsent => ⟨?_, ?_⟩, fun a => ⟨?_, ?_⟩⟩
  · rw [← hweights, ← hcapacity]
    exact (hd.history_after hfirst (fun _ => rfl) hempty n).2
  · obtain ⟨⟨choice, hchosen⟩, -⟩ := hd.held_of_sentAt hsent
    obtain ⟨i, hlt, hadmitted⟩ := hd.admittedAt_of_chosen hfirst hchosen
    exact ⟨i, hlt, _, hadmitted, hd.admissionOf_eq hadmitted⟩
  · intro m other hother
    exact hd.sentAt_unique hother hsent
  · exact Option.map_eq_none_iff
  · intro s
    exact Admission.neutral_of_sample

/-- The sample of a device whose outcome is missing. -/
private def unusableSample (device : String) : Sample Float :=
  ⟨⟨device⟩, .missing, .uninformative, true⟩

/-- Of three answers the first brings nothing, and there is room for one sample. -/
theorem history_holds_last_samples_creditRun :
    ∃ c, ofPolicy { Config.standard with historyLength := 1 } (Scripted.create 30 [.ofNat 4]) =
        .ok c ∧
      ((start c).answers creditRun 0 11).map Prod.fst = [0, 2, 1] ∧
      (start c).brought .standard creditRun 11 =
        [unusableSample "meter", unusableSample "valve"] ∧
      ((start c).after creditRun 11).controller.history.samples = [unusableSample "valve"] := by
  have h : ofPolicy { Config.standard with historyLength := 1 }
      (Scripted.create 30 [.ofNat 4]) = .ok _ := rfl
  exact ⟨_, h, rfl, rfl, (history_holds_last_samples h creditRun).1 11⟩

end Desk

end LinkTuner

import LinkTuner.Policy.Scripted
import LinkTuner.Proofs.Controller.Malformed

/-!
# Every observation is accounted for once

An observation is rejected, found to be a duplicate, or admitted. An admission waits until an action
is chosen for it, by the policy or as the fallback. Closing the request, or finding that the device
is gone, counts nothing more.
-/

namespace LinkTuner.Desk

open Controller

variable {P : Type} [Learner P] {d : Desk P}

/-- The books of a desk. -/
structure Balanced (d : Desk P) : Prop where
  observed : d.controller.counters.observations =
    d.controller.counters.rejections + d.controller.counters.duplicates + d.issued
  admitted : d.issued =
    d.controller.counters.decisions + d.controller.counters.timeouts + d.waiting.size

omit [Learner P] in
theorem balanced_start {c : Controller P} (h : c.counters = .zero) : (start c).Balanced := by
  constructor
  · simp [start, h, Counters.zero]
  · simp [start, h, Counters.zero]

namespace Balanced

omit [Learner P] in
/-- One observation goes to one of three places. -/
theorem enter (h : d.Balanced) (hd : d.Sound) {session : SessionId} {o : Wire.Observation}
    {now : Time} {result : Option Admission} {c : Controller P}
    (hc : Accepted d.controller session o now result c) : (d.enter c result).Balanced := by
  have hobserved := h.observed
  have hadmitted := h.admitted
  cases hc with
  | full hnew hfull =>
      constructor
      · simp only [Desk.enter, count]
        omega
      · simp only [Desk.enter, count]
        omega
  | duplicate hid hfind hphase hnext =>
      constructor
      · simp only [Desk.enter, count]
        omega
      · simp only [Desk.enter, count]
        omega
  | admitted hid hfind hphase hnext =>
      constructor
      · simp only [Desk.enter, count]
        omega
      · simp only [Desk.enter, count, Index.size_insert_of_none hd.waiting_issued]
        omega

/-- An admission stops waiting when its action is counted. -/
theorem advance (h : d.Balanced) (hd : d.Sound) {ticket : Nat} {a : Admission} {timing : Timing}
    {choice : Choice} {c : Controller P} (hfind : d.waiting.find? ticket = some a)
    (hc : Prepared d.controller a timing choice c) : (d.advance c ticket choice).Balanced := by
  have hobserved := h.observed
  have hadmitted := h.admitted
  have hsize := hd.distinct.size_erase hfind
  obtain ⟨-, -, hchosen⟩ := hc
  generalize hpair : (choice.action, choice.how) = pair at hchosen
  cases hchosen with
  | fallback hmissed =>
      constructor
      · exact hobserved
      · simp only [Desk.advance, count]
        omega
  | drawn hprompt hdrawn =>
      constructor
      · exact hobserved
      · simp only [Desk.advance, count]
        omega

omit [Learner P] in
/-- Concluding a decision counts nothing, whether the device is there or gone. -/
theorem leave (h : d.Balanced) {ticket : Nat} {choice : Choice} {result : Option Wire.Decision}
    {c : Controller P} (hc : Concluded d.controller choice result c) :
    (d.leave c ticket).Balanced := by
  cases hc with
  | gone hfind => exact ⟨h.observed, h.admitted⟩
  | closed hid hfind hphase hnext => exact ⟨h.observed, h.admitted⟩

/-- One call keeps the books balanced. -/
theorem step (h : d.Balanced) (hd : d.Sound) (call : Call) : (d.step call).Balanced := by
  have hstep := stepped hd.registry call
  generalize d.step call = d' at hstep ⊢
  cases hstep with
  | accepted hc => exact h.enter hd hc
  | prepared hfind hc => exact h.advance hd hfind hc
  | unprepared hfind => exact h
  | concluded hfind hc => exact h.leave hc
  | unconcluded hfind => exact h
  | opened => exact ⟨h.observed, h.admitted⟩
  | closed => exact ⟨h.observed, h.admitted⟩
  | evicted => exact ⟨h.observed, h.admitted⟩
  | malformed => exact ⟨h.observed, h.admitted⟩
  | stopped => exact ⟨h.observed, h.admitted⟩
  | read => exact h

/-- A run keeps the books balanced. -/
theorem run (h : d.Balanced) (hd : d.Sound) (calls : List Call) : (d.run calls).Balanced := by
  induction calls generalizing d with
  | nil => exact h
  | cons call calls ih => exact ih (h.step hd call) (hd.step call)

end Balanced

/-- After every run the observations are those that were handed over, and each of them is a rejected
one, a duplicate, one whose action the policy decided, one that fell back or one that still waits;
the last three are the admissions. -/
theorem observations_accounted {config : Config} {policy : P} {c : Controller P}
    (h : ofPolicy config policy = .ok c) (calls : List Call) :
    let d := (start c).run calls
    let n := d.controller.counters
    n.observations = n.rejections + n.duplicates + n.decisions + n.timeouts + d.waiting.size ∧
      d.issued = n.decisions + n.timeouts + d.waiting.size ∧
      n.observations = (calls.filterMap Call.observation?).length := by
  intro d n
  have hzero : (start c).controller.counters = .zero := (ofPolicy_ok h).2
  have hd : d.Balanced := (balanced_start hzero).run (sound_of_ofPolicy h) calls
  have hobserved : n.observations = n.rejections + n.duplicates + d.issued := hd.observed
  have hadmitted : d.issued = n.decisions + n.timeouts + d.waiting.size := hd.admitted
  refine ⟨by omega, hadmitted, ?_⟩
  calc n.observations
      = (start c).controller.counters.observations + (calls.filterMap Call.observation?).length :=
        observations_run (start c) calls
    _ = (calls.filterMap Call.observation?).length := by simp [hzero, Counters.zero]

/-- The session ends while its device waits, and the policy answers too late. -/
theorem observations_accounted_gone_device :
    ∃ c, ofPolicy .standard (Scripted.create 30 [.ofNat 4]) = .ok c ∧
      let d := (start c).run [.opened, .accept (.uniform 1) ⟨⟨"meter"⟩, none, .missing, none⟩ 0,
        .accept (.uniform 1) ⟨⟨"meter"⟩, none, .missing, none⟩ 5, .closed (.uniform 1),
        .accept (.uniform 2) ⟨⟨"meter"⟩, none, .missing, none⟩ 9, .prepare 0 .late, .conclude 0]
      let n := d.controller.counters
      n.observations = n.rejections + n.duplicates + n.decisions + n.timeouts + d.waiting.size ∧
        d.issued = n.decisions + n.timeouts + d.waiting.size ∧ n.observations = 3 := by
  have h : ofPolicy .standard (Scripted.create 30 [.ofNat 4]) = .ok _ := rfl
  exact ⟨_, h, observations_accounted h _⟩

end LinkTuner.Desk

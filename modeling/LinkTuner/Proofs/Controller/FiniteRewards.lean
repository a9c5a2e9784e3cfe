import LinkTuner.Proofs.Config.Startable
import LinkTuner.Proofs.Controller.Credit
import LinkTuner.Proofs.Double.Undefined
import LinkTuner.Proofs.Policy.Estimates

/-!
# Rewards that are numbers

Telemetry is turned away unless it is finite, and then a quotient, two products and a difference are
made of it. Main statement: a reward is refused exactly if telemetry is missing or not finite, and
otherwise it is a number exactly as long as none of these four steps leaves the range of doubles.
What a policy is fed, what a record keeps and what the history holds is in every run the reward for
a reported outcome.
-/

namespace LinkTuner

open Double

/-! ## One outcome -/

/-- A reward whose value and parts are finite. -/
def Reward.Finite (r : Reward Float) : Prop :=
  r.value.isFinite = true ∧ r.delivery.isFinite = true ∧ r.energy.isFinite = true

theorem Reward.finite_uninformative : (uninformative : Reward Float).Finite := ⟨rfl, rfl, rfl⟩

/-- The outcome is complete and its telemetry are these numbers. -/
def Outcome.Tells (o : Outcome Float) (delivery joules : ℚ) : Prop :=
  ∃ x y, o = ⟨some x, some y⟩ ∧ Holds x delivery ∧ Holds y joules

namespace Weights

variable {w : Weights Float} {o : Outcome Float}

/-- What weights with which a blend can be made stand for. -/
structure Are (w : Weights Float) (a b ref : ℚ) : Prop where
  alpha : Holds w.alpha a
  beta : Holds w.beta b
  reference : Holds w.reference ref
  alpha_nonneg : 0 ≤ a
  beta_nonneg : 0 ≤ b
  reference_pos : 0 < ref

/-- The steps from telemetry to a reward, each rounded to the nearest double: the normalised energy,
the products with the weights and their difference. -/
structure Steps (a b ref delivery joules energy gain cost value : ℚ) : Prop where
  quotient : Nearest (joules / ref) energy
  product : Nearest (a * delivery) gain
  product' : Nearest (b * energy) cost
  difference : Nearest (gain - cost) value

/-- The weights never stand in the way of a reward. -/
theorem Blendable.combine_eq {α : Type} [Arith α] {w : Weights α} (hw : w.Blendable) {x y : α}
    (hx : Arith.isFinite x = true) (hy : Arith.isFinite y = true) :
    w.combine ⟨some x, some y⟩ =
      .ok ⟨w.blend x (y / w.reference), x, y / w.reference, false⟩ := by
  have hfinite := (Bool.and_eq_true_iff.mp hw.finite).2
  simp [combine, Arith.same, hx, hy, hw.reference, hfinite]

/-- A reward is refused exactly if telemetry is missing or not finite. -/
theorem Blendable.error_iff (hw : w.Blendable) (o : Outcome Float) :
    (∃ fault, w.combine o = .error fault) ↔ ¬∃ delivery joules, o.Tells delivery joules := by
  constructor
  · rintro ⟨fault, hfault⟩ ⟨_, _, x, y, rfl, hx, hy⟩
    rw [hw.combine_eq hx.finite hy.finite] at hfault
    cases hfault
  · intro htells
    obtain ⟨delivery, joules⟩ := o
    match delivery, joules with
    | none, _ => exact ⟨_, rfl⟩
    | some _, none => exact ⟨_, rfl⟩
    | some x, some y =>
        have hnot : (!x.isFinite || !y.isFinite) = true := by
          by_contra hfinite
          simp only [Bool.or_eq_true, Bool.not_eq_true', not_or, Bool.not_eq_false] at hfinite
          exact htells ⟨_, _, x, y, rfl, ⟨hfinite.1, rfl⟩, hfinite.2, rfl⟩
        exact ⟨_, if_pos hnot⟩

theorem Blendable.exists_are (hw : w.Blendable) : ∃ a b ref, w.Are a b ref := by
  obtain ⟨hfinite, hsign, -, hreference⟩ := hw
  simp only [Bool.and_eq_true] at hfinite
  obtain ⟨⟨halpha, hbeta⟩, href⟩ := hfinite
  obtain ⟨hnotAlpha, hnotBeta⟩ := Bool.or_eq_false_iff.mp hsign
  have hnonneg {x : Float} {v : ℚ} (hx : Holds x v) (hnot : Arith.lt x 0 = false) : 0 ≤ v := by
    have hlt : ¬x < (0.0 : Float) := of_decide_eq_false hnot
    rwa [hx.lt_iff_lt holds_zero, not_lt] at hlt
  have hpos {x : Float} {v : ℚ} (hx : Holds x v) (hnot : Arith.le x 0 = false) : 0 < v := by
    have hle : ¬x ≤ (0.0 : Float) := of_decide_eq_false hnot
    rwa [hx.le_iff_le holds_zero, not_le] at hle
  have hholds {x : Float} (hx : Arith.isFinite x = true) : Holds x (value (form x)) := ⟨hx, rfl⟩
  exact ⟨_, _, _, hholds halpha, hholds hbeta, hholds href, hnonneg (hholds halpha) hnotAlpha,
    hnonneg (hholds hbeta) hnotBeta, hpos (hholds href) hreference⟩

section

variable {a b ref delivery joules : ℚ}

/-- A reward is a number as long as none of the steps to it leaves the range. -/
theorem Are.exists_steps (h : w.Are a b ref) (hw : w.Blendable) (ho : o.Tells delivery joules) :
    ∃ r, w.combine o = .ok r ∧ r.neutral = false ∧ some r.delivery = o.delivery ∧
      ∃ energy gain cost value, Steps a b ref delivery joules energy gain cost value ∧
        (r.Finite ↔ Fits energy ∧ Fits gain ∧ Fits cost ∧ Fits value) ∧
        (r.Finite → Holds r.energy energy ∧ Holds r.value value) := by
  obtain ⟨x, y, rfl, hx, hy⟩ := ho
  refine ⟨_, hw.combine_eq hx.finite hy.finite, rfl, rfl, ?_⟩
  obtain ⟨energy, henergy, hfollows⟩ := (hy.div h.reference h.reference_pos.ne').exists_follows
  obtain ⟨gain, hgain, hfollowsGain⟩ := (h.alpha.mul hx).exists_follows
  obtain ⟨cost, hcost, hfollowsCost⟩ := hfollows.exists_mul h.beta
  obtain ⟨value, hvalue, hfollowsValue⟩ := hfollowsGain.exists_sub hfollowsCost
  have hfinite : Reward.Finite ⟨w.blend x (y / w.reference), x, y / w.reference, false⟩ ↔
      Fits energy ∧ Fits gain ∧ Fits cost ∧ Fits value := by
    have hdelivery : x.isFinite = true := hx.finite
    rw [Reward.Finite, blend, hfollowsValue.isFinite_iff, hfollows.isFinite_iff]
    tauto
  refine ⟨energy, gain, cost, value, ⟨henergy, hgain, hcost, hvalue⟩, hfinite, fun h => ?_⟩
  obtain ⟨he, hg, hc, hv⟩ := hfinite.mp h
  exact ⟨hfollows.holds he, hfollowsValue.holds ⟨⟨hg, he, hc⟩, hv⟩⟩

/-- Of telemetry in its range, only the energy can be too large. -/
theorem Steps.fits_iff {energy gain cost value : ℚ} (h : w.Are a b ref)
    (hsteps : Steps a b ref delivery joules energy gain cost value) (hdelivery : 0 ≤ delivery)
    (hone : delivery ≤ 1) (hjoules : 0 ≤ joules) :
    Fits energy ∧ Fits gain ∧ Fits cost ∧ Fits value ↔ Fits energy ∧ Fits cost := by
  have henergy : 0 ≤ energy :=
    hsteps.quotient.le_of_ge isDouble_zero (div_nonneg hjoules h.reference_pos.le)
  have hcost : 0 ≤ cost :=
    hsteps.product'.le_of_ge isDouble_zero (mul_nonneg h.beta_nonneg henergy)
  have hgain : 0 ≤ gain :=
    hsteps.product.le_of_ge isDouble_zero (mul_nonneg h.alpha_nonneg hdelivery)
  have hle : gain ≤ a :=
    hsteps.product.le_of_le h.alpha.isDouble (mul_le_of_le_one_right h.alpha_nonneg hone)
  have hfitsGain : Fits gain := .of_between holds_zero.abs_lt h.alpha.abs_lt hgain hle
  have hlow : -cost ≤ value := hsteps.difference.le_of_ge hsteps.product'.isDouble.neg (by linarith)
  have hhigh : value ≤ gain := hsteps.difference.le_of_le hsteps.product.isDouble (by linarith)
  have hfitsValue (hfits : Fits cost) : Fits value := hfits.neg.of_between hfitsGain hlow hhigh
  tauto

end

end Weights

/-! ## Runs -/

namespace Desk

open Controller

variable {P : Type} [Learner P] {d : Desk P} {calls : List Call} {n : Nat}

/-- A reward for an outcome that is reported in a run. -/
def Brought (w : Weights Float) (calls : List Call) (r : Reward Float) : Prop :=
  ∃ session o now, .accept session o now ∈ calls ∧ r = w.reward o.outcome

/-- The admission for which an action is to be chosen comes from an observation of the run. -/
theorem Sound.brought_of_chooses (hd : d.Sound) (hfirst : ∀ k, d.held k = none) {ticket : Nat}
    {timing : Timing} {a : Admission} (h : d.Chooses calls n ticket timing a)
    (w : Weights Float) : Brought w calls (w.reward a.observation.outcome) := by
  obtain ⟨i, -, ⟨session, now, hcall⟩, -, -⟩ := hd.admitted_of_chooses hfirst h
  exact ⟨session, a.observation, now, List.mem_of_getElem? hcall, rfl⟩

theorem Sound.reward_of_chosen (hd : d.Sound) (hfirst : ∀ k, d.chosen.find? k = none)
    {ticket : Nat} {choice : Choice} (hchosen : (d.after calls n).chosen.find? ticket = some choice) :
    choice.reward = rewarded d.controller.weights choice.admission := by
  revert hchosen
  refine after_induction ?start ?step (fun _ _ ih => ih) n
  case start =>
    intro hchosen
    rw [hfirst ticket] at hchosen
    cases hchosen
  case step =>
    intro n call hcall ih hchosen
    obtain hbefore | ⟨timing, a, c, rfl, -, hc⟩ :=
      (stepped (hd.after n).registry call).chosen_cases hchosen
    · exact ih hbefore
    · rw [hc.admission, hc.reward, (hd.settings_after calls n).2]

/-- The reward that came with a choice. -/
theorem Sound.brought_of_chosen (hd : d.Sound) (hfirst : ∀ k, d.held k = none)
    (hnone : ∀ k, d.chosen.find? k = none) {ticket : Nat} {choice : Choice}
    (hchosen : (d.after calls n).chosen.find? ticket = some choice) {r : Reward Float} {b : Bool}
    (hr : choice.reward = some (r, b)) : Brought d.controller.weights calls r := by
  obtain ⟨m, -, timing, c, hchooses, -⟩ := hd.chooses_of_chosen hnone hchosen
  have hbrought := hd.brought_of_chooses hfirst hchooses d.controller.weights
  rw [hd.reward_of_chosen hnone hchosen, rewarded] at hr
  obtain ⟨action, -, heq⟩ := Option.map_eq_some_iff.mp hr
  have hreward : r = d.controller.weights.reward choice.admission.observation.outcome := by
    cases hcombine : d.controller.weights.combine choice.admission.observation.outcome <;>
      simp_all [Weights.reward]
  exact hreward ▸ hbrought

/-- The reward of a record is one that was brought. -/
theorem Sound.brought_of_record (hd : d.Sound) (hfirst : ∀ k, d.held k = none)
    (hnone : ∀ k, d.chosen.find? k = none) (hempty : ∀ device, d.record? device = none)
    {device : DeviceId} {v : Float} :
    ∀ record, (d.after calls n).record? device = some record → record.lastReward = some v →
      ∃ r, Brought d.controller.weights calls r ∧ v = r.value := by
  refine after_induction ?start ?step (fun _ _ ih => ih) n
  case start =>
    intro record h
    rw [hempty device] at h
    cases h
  case step =>
    intro n call hcall ih record h hv
    have hrecorded := (hd.after n).recorded call h
    generalize (d.after calls n).admittedFor device call = admitted at hrecorded
    generalize (d.after calls n).sentTo device call = sent at hrecorded
    cases hrecorded with
    | kept hfind _ _ => exact ih _ hfind hv
    | duplicate _ hfind _ => exact ih _ hfind hv
    | admitted _ hfind _ =>
        obtain hfind | ⟨-, rfl⟩ := hfind
        · exact ih _ hfind hv
        · cases hv
    | @answered ticket choice since before hchosen _ hfind _ =>
        simp only [Registry.closed] at hv
        cases hreward : choice.reward with
        | none => exact ih _ hfind (by simpa [hreward] using hv)
        | some brought =>
            obtain ⟨r, b⟩ := brought
            rw [hreward] at hv
            cases hv
            exact ⟨r, hd.brought_of_chosen hfirst hnone hchosen hreward, rfl⟩

theorem mem_push {h : History} {s t : Sample Float} (hs : s ∈ (h.push t).samples) :
    s ∈ h.samples ∨ s = t := by
  unfold History.push at hs
  split_ifs at hs with hnone hfull
  · exact .inl hs
  · rw [List.mem_append, List.mem_singleton] at hs
    exact hs.imp_left List.mem_of_mem_drop
  · rwa [List.mem_append, List.mem_singleton] at hs

/-- Only the second half of a decision writes to the history, and only the reward of its choice. -/
theorem Stepped.mem_history {d' : Desk P} {call : Call} (h : Stepped d call d')
    {s : Sample Float} (hs : s ∈ d'.controller.history.samples) :
    s ∈ d.controller.history.samples ∨
      ∃ ticket choice, d.chosen.find? ticket = some choice ∧
        choice.reward = some (s.reward, s.neutral) := by
  obtain ⟨-, hhistory⟩ | ⟨ticket, choice, answer, -, hchosen, hhistory⟩ := h.history_cases
  · exact .inl (hhistory ▸ hs)
  · rw [hhistory] at hs
    cases hsample : choice.sample with
    | none =>
        rw [hsample] at hs
        exact .inl hs
    | some t =>
        rw [hsample] at hs
        obtain hbefore | rfl := mem_push hs
        · exact .inl hbefore
        · obtain ⟨brought, hreward, rfl⟩ := Option.map_eq_some_iff.mp hsample
          exact .inr ⟨ticket, choice, hchosen, hreward⟩

/-- The rewards of the history are those that were brought. -/
theorem Sound.brought_of_history (hd : d.Sound) (hfirst : ∀ k, d.held k = none)
    (hnone : ∀ k, d.chosen.find? k = none) (hempty : d.controller.history.samples = [])
    {s : Sample Float} (hs : s ∈ (d.after calls n).controller.history.samples) :
    Brought d.controller.weights calls s.reward := by
  revert hs
  refine after_induction ?start ?step (fun _ _ ih => ih) n
  case start =>
    intro hs
    rw [hempty] at hs
    cases hs
  case step =>
    intro n call hcall ih hs
    obtain hbefore | ⟨ticket, choice, hchosen, hreward⟩ :=
      (stepped (hd.after n).registry call).mem_history hs
    · exact ih hbefore
    · exact hd.brought_of_chosen hfirst hnone hchosen hreward

/-- The call in place `n` lets the policy alone or has it make its step with the reward for an
outcome that is reported in the run, and such rewards only are in the records and the history. -/
structure HoldsBrought (d : Desk P) (w : Weights Float) (calls : List Call) (n : Nat) : Prop where
  policy : (d.after calls (n + 1)).controller.owner.policy =
      (d.after calls n).controller.owner.policy ∨
    ∃ update, (d.after calls (n + 1)).controller.owner =
        ((d.after calls n).controller.owner.step update).2 ∧
      ∀ action r, update = some (action, r) → Brought w calls r
  records : ∀ device record v, (d.after calls n).record? device = some record →
    record.lastReward = some v → ∃ r, Brought w calls r ∧ v = r.value
  history : ∀ s ∈ (d.after calls n).controller.history.samples, Brought w calls s.reward

theorem holdsBrought_start {config : Config} {policy : P} {c : Controller P}
    (h : ofPolicy config policy = .ok c) (calls : List Call) (n : Nat) :
    (start c).HoldsBrought config.weights calls n := by
  have hd : (start c).Sound := sound_of_ofPolicy h
  have hfirst : ∀ k, (start c).held k = none := fun _ => rfl
  have hnone : ∀ k, (start c).chosen.find? k = none := fun _ => rfl
  obtain ⟨catalog, -, hc⟩ := of_ofPolicy h
  have hweights : (start c).controller.weights = config.weights := by rw [hc]; rfl
  rw [← hweights]
  constructor
  · cases hfed : (start c).fedAt calls n with
    | none => exact .inl (hd.policy_of_fedAt_none hfed)
    | some fed =>
        refine .inr ⟨_, hd.owner_of_fedAt hfed, fun action r hupdate => ?_⟩
        obtain ⟨_, -, heq⟩ := Option.map_eq_some_iff.mp hupdate
        cases heq
        obtain ⟨-, timing, -, hchooses⟩ := of_fedAt hfed
        exact hd.brought_of_chooses hfirst hchooses _
  · intro device record v
    exact hd.brought_of_record hfirst hnone (fun _ => by rw [hc]; rfl) record
  · intro s
    exact hd.brought_of_history hfirst hnone (by rw [hc]; rfl)

end Desk

namespace Weights

/-- With weights that pass their check, a reward is refused exactly if telemetry is missing or not
finite, and the one that takes its place is a number. Any other reward is a number exactly if the
four steps to it stay in the range of doubles, of which the energy alone can leave it as long as the
telemetry is in its own range. In every run of a controller with these weights, the policy is fed
the rewards for reported outcomes and no others, and records and history hold no others. -/
theorem rewards_are_numbers_unless_out_of_range {w : Weights Float} (h : w.check = .ok ()) :
    (∀ o, (∃ fault, w.combine o = .error fault) ↔ ¬∃ delivery joules, o.Tells delivery joules) ∧
    (∀ o, (∃ fault, w.combine o = .error fault) → (w.reward o).Finite) ∧
    (∃ a b ref, w.Are a b ref ∧ ∀ o delivery joules, o.Tells delivery joules →
      ∃ r, w.combine o = .ok r ∧ r.neutral = false ∧ some r.delivery = o.delivery ∧
        ∃ energy gain cost value,
          Steps a b ref delivery joules energy gain cost value ∧
          (r.Finite ↔ Fits energy ∧ Fits gain ∧ Fits cost ∧ Fits value) ∧
          (r.Finite → Holds r.energy energy ∧ Holds r.value value) ∧
          (0 ≤ delivery → delivery ≤ 1 → 0 ≤ joules → (r.Finite ↔ Fits energy ∧ Fits cost))) ∧
    ∀ (P : Type) [Learner P] (config : Config) (policy : P) (c : Controller P),
      Controller.ofPolicy config policy = .ok c → config.weights = w →
      ∀ calls n, (Desk.start c).HoldsBrought w calls n := by
  have hw := check_eq_ok_iff.mp h
  obtain ⟨a, b, ref, hare⟩ := hw.exists_are
  refine ⟨hw.error_iff, ?_, ⟨a, b, ref, hare, ?_⟩, ?_⟩
  · rintro o ⟨fault, hfault⟩
    rw [reward_of_error hfault]
    exact Reward.finite_uninformative
  · intro o delivery joules htells
    obtain ⟨r, hr, hneutral, hdelivery, energy, gain, cost, value, hsteps, hfinite, hholds⟩ :=
      hare.exists_steps hw htells
    exact ⟨r, hr, hneutral, hdelivery, energy, gain, cost, value, hsteps, hfinite, hholds,
      fun hzero hone hjoules => hfinite.trans (hsteps.fits_iff hare hzero hone hjoules)⟩
  · rintro P _ config policy c hc rfl calls n
    exact Desk.holdsBrought_start hc calls n

/-- Telemetry of which half is missing, telemetry of an ordinary transmission, and a run. -/
theorem rewards_are_numbers_unless_out_of_range_standard :
    standard.check = .ok () ∧
      (∃ fault, standard.combine ⟨some 1.0, none⟩ = .error fault) ∧
      (standard.reward ⟨some 1.0, none⟩).Finite ∧
      (∃ r, standard.combine ⟨some 1.0, some 1.0⟩ = .ok r ∧ r.neutral = false ∧ r.Finite) ∧
      ∃ c, Controller.ofPolicy .standard (Scripted.create 30 [.ofNat 4]) = .ok c ∧
        ∀ n, (Desk.start c).HoldsBrought standard Desk.creditRun n := by
  have h : standard.check = .ok () := rfl
  obtain ⟨-, hneutral, ⟨a, b, ref, -, htells⟩, hruns⟩ := rewards_are_numbers_unless_out_of_range h
  have hmissing : ∃ fault, standard.combine ⟨some 1.0, none⟩ = .error fault := ⟨_, rfl⟩
  obtain ⟨r, hr, htelling, -⟩ := htells ⟨some 1.0, some 1.0⟩ 1 1 ⟨_, _, rfl, holds_one, holds_one⟩
  have hbuilt : Controller.ofPolicy .standard (Scripted.create 30 [.ofNat 4]) = .ok _ := rfl
  refine ⟨h, hmissing, hneutral _ hmissing, ⟨r, hr, htelling, ?_⟩, _, hbuilt,
    hruns _ _ _ _ hbuilt rfl Desk.creditRun⟩
  obtain rfl : _ = r := Except.ok.inj hr
  exact ⟨rfl, rfl, rfl⟩

/-- Half of the range of doubles is finite, but not its quotient by a twentieth; without a weight
for the energy the value is not even infinite. -/
theorem finite_telemetry_without_finite_reward :
    ∃ r, check ⟨1.0, 0.0, 0.05⟩ = .ok () ∧
      combine ⟨1.0, 0.0, 0.05⟩ ⟨some 1.0, some halfRange⟩ = .ok r ∧ halfRange.isFinite = true ∧
      r.energy.isFinite = false ∧ r.value.isNaN = true :=
  ⟨_, rfl, rfl, rfl, by decide +kernel, by decide +kernel⟩

end Weights

end LinkTuner

import LinkTuner.Proofs.Double.Order
import LinkTuner.Proofs.Policy.Candidates

/-!
# Estimates that stay numbers

Over doubles an energy can be so large that its estimate becomes infinite and then undefined. An
arm is spared if no telling reward for it takes more than half of the range of doubles. Its
estimates stay in the range of what it was fed, so its value is always a number, and every draw
finds a candidate whatever is fed for the other arms. If no arm is spared, two rewards can be enough
to leave nothing to draw from.
-/

namespace LinkTuner

open Double

instance : Arith.Comparing Float where
  le_self h := decide_eq_true ((le_iff h h).mpr le_rfl)
  defined_of_le h := (not_isNaN_of_le (of_decide_eq_true h)).1
  defined_of_lt h := (not_isNaN_of_lt (of_decide_eq_true h)).2

instance : Arith.Ordered Float where
  le_trans hxy hyz := by
    obtain ⟨hx, hy⟩ := not_isNaN_of_le (of_decide_eq_true hxy)
    obtain ⟨-, hz⟩ := not_isNaN_of_le (of_decide_eq_true hyz)
    have hxy := (le_iff hx hy).mp (of_decide_eq_true hxy)
    have hyz := (le_iff hy hz).mp (of_decide_eq_true hyz)
    exact decide_eq_true ((le_iff hx hz).mpr (hxy.trans hyz))
  le_of_lt h := by
    obtain ⟨hx, hy⟩ := not_isNaN_of_lt (of_decide_eq_true h)
    exact decide_eq_true ((le_iff hx hy).mpr ((lt_iff hx hy).mp (of_decide_eq_true h)).le)
  le_of_not_lt hx hy h := by
    have hlt := mt (lt_iff hx hy).mpr (of_decide_eq_false h)
    exact decide_eq_true ((le_iff hy hx).mpr (not_lt.mp hlt))

/-- Half of the range of doubles, which is `2 ^ 1023`. -/
def halfRange : Float := Float.ofBits 0x7FE0000000000000

theorem holds_halfRange : Holds halfRange (2 ^ (1023 : ℤ)) := by
  have hform : form halfRange = .finite .positive (2 ^ 52) 971 (by norm_num) := rfl
  refine ⟨rfl, ?_⟩
  rw [hform, value, signed, two_zpow_eq 1023 52]
  norm_num

namespace Greedy

/-! ## One arm -/

/-- The estimates of an arm are numbers in the range of what a spared arm is fed. -/
def Measured (delivery energy : Float) : Prop :=
  (∃ d, Holds delivery d ∧ Within 0 d) ∧ ∃ j, Holds energy j ∧ Within 1023 j

/-- A step size is a share. -/
def IsStep (step : Option Float) : Prop := ∀ s, step = some s → ∃ c, Holds s c ∧ Within 0 c

theorem isStep_of_check {step : Option Float}
    (h : ∀ s, step = some s → (Arith.lt 0 s && Arith.le s 1) = true) : IsStep step := by
  intro s hs
  obtain ⟨hpos, hone⟩ := Bool.and_eq_true_iff.mp (h s hs)
  have hpos : (0.0 : Float) < s := of_decide_eq_true hpos
  have hone : s ≤ (1.0 : Float) := of_decide_eq_true hone
  obtain ⟨c, hc, hzero, hle⟩ := exists_holds_of_between holds_zero holds_one
    (not_isNaN_of_lt hpos).2 (not_lt_of_lt hpos) (not_lt_of_le hone)
  exact ⟨c, hc, hzero, by simpa using hle⟩

/-- The share by which a mean moves. -/
theorem exists_holds_one_div {n : Nat} (hn : 0 < n) :
    ∃ c, Holds ((One.one : Float) / (Nat.cast n : Float)) c ∧ Within 0 c := by
  obtain ⟨r, hr, hholds, hinfinite⟩ := result_ofNat n
  have hone : (1 : ℚ) ≤ r := hr.le_of_ge (isDouble_zpow (by norm_num : (-1074 : ℤ) ≤ 0))
    (by simpa using mod_cast hn)
  rcases lt_or_ge |r| (2 ^ (1024 : ℤ)) with hlt | hle
  · have hzero : (0 : ℚ) ≤ 1 / r := by positivity
    have hle : 1 / r ≤ (2 : ℚ) ^ (0 : ℤ) := by simpa using inv_le_one_of_one_le₀ hone
    obtain ⟨c, hc, hc'⟩ := (holds_one.div (hholds hlt) (by positivity)).exists_holds
      (by norm_num : (0 : ℤ) ≤ 1023)
    have hwithin : Within 0 c :=
      ⟨hc.le_of_ge isDouble_zero hzero, hc.le_of_le (isDouble_zpow (by norm_num)) hle⟩
    exact ⟨c, hc' hwithin.abs_le, hwithin⟩
  · exact ⟨0, holds_one.div_of_isInf (hinfinite hle), le_rfl, by norm_num⟩

theorem measured_bounded {r : Reward Float} (h : ¬halfRange < r.energy) :
    Measured (bounded r).1 (bounded r).2 := by
  have hzero (k : ℤ) : ∃ v, Holds 0.0 v ∧ Within k v := ⟨0, holds_zero, le_rfl, by positivity⟩
  constructor
  · simp only [bounded]
    split
    next => exact hzero 0
    next hdefined =>
      unfold Arith.clamp
      split_ifs with hlow hhigh
      · exact hzero 0
      · exact ⟨1, holds_one, by norm_num, by norm_num⟩
      · obtain ⟨v, hv, hle, hge⟩ := exists_holds_of_between holds_zero holds_one
          (Bool.eq_false_iff.mpr hdefined) (fun hlt => hlow (decide_eq_true hlt))
          (fun hlt => hhigh (decide_eq_true hlt))
        exact ⟨v, hv, hle, by simpa using hge⟩
  · simp only [bounded]
    split
    next => exact hzero 1023
    next hdefined =>
      unfold Arith.greater
      split
      next hpos =>
        have hzero' : Arith.isUndefined (0.0 : Float) = false := holds_zero.not_isNaN
        have hpos : (0.0 : Float) < r.energy :=
          of_decide_eq_true
            ((Bool.or_eq_true_iff.mp hpos).resolve_left (Bool.eq_false_iff.mp hzero'))
        exact exists_holds_of_between holds_zero holds_halfRange (Bool.eq_false_iff.mpr hdefined)
          (not_lt_of_lt hpos) h
      next => exact hzero 1023

theorem Measured.learn {step : Option Float} (hstep : IsStep step) {parts : Float × Float}
    (hparts : Measured parts.1 parts.2) {e : ArmEstimate Float}
    (h : Measured e.delivery e.energy) :
    Measured (learn step parts e).delivery (learn step parts e).energy := by
  obtain ⟨c, hc, hshare⟩ : ∃ c, Holds (step.getD (One.one / Nat.cast (e.count + 1))) c ∧
      Within 0 c := by
    cases step with
    | none => exact exists_holds_one_div (Nat.succ_pos _)
    | some s => exact hstep s rfl
  obtain ⟨⟨d, hd, hd'⟩, j, hj, hj'⟩ := h
  obtain ⟨⟨δ, hδ, hδ'⟩, ε, hε, hε'⟩ := hparts
  exact ⟨hd.moved hδ hc (by norm_num) (by norm_num) hd' hδ' hshare,
    hj.moved hε hc (by norm_num) (by norm_num) hj' hε' hshare⟩

/-- The value of such an arm is a number: delivery cannot make it infinite, and energy can do so in
one direction only. -/
theorem Measured.blend {w : Weights Float} {alpha beta : ℚ} (halpha : Holds w.alpha alpha)
    (hbeta : Holds w.beta beta) {delivery energy : Float} (h : Measured delivery energy) :
    (w.blend delivery energy).isNaN = false := by
  obtain ⟨⟨d, hd, hd'⟩, j, hj, -⟩ := h
  obtain ⟨r, hr, hholds, -⟩ := halpha.mul hd
  have hr' : |r| ≤ |alpha| := by
    apply hr.abs_le_of_abs_le halpha.isDouble.abs
    rw [mul_comm]
    exact hd'.abs_mul_le le_rfl
  exact (hholds (hr'.trans_lt halpha.abs_lt)).sub_not_isNaN (hbeta.mul hj).not_isNaN

/-! ## Runs -/

variable {γ : Type}

/-- One arm of the strategy is measured, and its parameters are numbers. -/
structure Spares (arm : Nat) (p : Greedy Float γ) : Prop where
  alpha : p.weights.alpha.isFinite = true
  beta : p.weights.beta.isFinite = true
  step : IsStep p.step
  measured : ∃ e, p.estimates[arm]? = some e ∧ Measured e.delivery e.energy

/-- No telling reward for an arm takes more than half of the range. -/
def Sparing (arm : Nat) (a : ActionId) (r : Reward Float) : Prop :=
  a.toNat = arm → r.neutral = false → ¬halfRange < r.energy

/-- The reward for telemetry is such if the energy is at most that many times the reference. -/
theorem sparing_combine {w : Weights Float} {o : Outcome Float} {r : Reward Float}
    (h : w.combine o = .ok r) {joules : Float} (hjoules : o.energy = some joules) {v ref : ℚ}
    (hv : Holds joules v) (href : Holds w.reference ref) (hpos : 0 < ref)
    (hle : |v| ≤ 2 ^ (1023 : ℤ) * ref) (arm : Nat) (a : ActionId) : Sparing arm a r := by
  intro _ _
  have henergy : r.energy = joules / w.reference := by
    simp only [Weights.combine, hjoules] at h
    cases hdelivery : o.delivery with
    | none => simp [hdelivery] at h
    | some delivery =>
        simp only [hdelivery] at h
        split_ifs at h
        cases h
        rfl
  obtain ⟨e, he, hquotient⟩ := (hv.div href hpos.ne').exists_holds (le_refl (1023 : ℤ))
  have he' : |e| ≤ 2 ^ (1023 : ℤ) := by
    apply he.abs_le_of_abs_le (isDouble_zpow (by norm_num))
    rwa [abs_div, abs_of_pos hpos, div_le_iff₀ hpos]
  have hholds := hquotient he'
  rw [henergy, holds_halfRange.lt_iff_lt hholds, not_lt]
  exact (abs_le.mp he').2

theorem isFinite_of_check {w : Weights Float} (h : w.check = .ok ()) :
    w.alpha.isFinite = true ∧ w.beta.isFinite = true := by
  unfold Weights.check at h
  split at h
  next => cases h
  next hfinite =>
    simp only [Bool.or_eq_true, Bool.not_eq_true', not_or, Bool.not_eq_false] at hfinite
    exact hfinite.1.1

theorem spares_initial {arms arm : Nat} (harm : arm < arms) {epsilon : Float} {step : Option Float}
    {weights : Weights Float} {source : γ} (hweights : weights.check = .ok ())
    (hstep : IsStep step) : (initial arms epsilon step weights source).Spares arm where
  alpha := (isFinite_of_check hweights).1
  beta := (isFinite_of_check hweights).2
  step := hstep
  measured := ⟨⟨Zero.zero, Zero.zero, 0⟩, (List.getElem?_replicate_of_lt harm).trans rfl,
    ⟨0, holds_zero, le_rfl, by norm_num⟩, 0, holds_zero, le_rfl, by positivity⟩

namespace Spares

variable {arm : Nat} {p : Greedy Float γ}

theorem lt_arms (h : p.Spares arm) : arm < p.arms := by
  obtain ⟨e, he, -⟩ := h.measured
  exact (List.getElem?_eq_some_iff.mp he).1

theorem fed (h : p.Spares arm) {a : ActionId} {r : Reward Float} (hr : Sparing arm a r) :
    (p.fed a.toNat r).Spares arm := by
  cases hneutral : r.neutral with
  | true => simpa [Greedy.fed, hneutral] using ⟨h.alpha, h.beta, h.step, h.measured⟩
  | false =>
      obtain ⟨e, he, hmeasured⟩ := h.measured
      refine ⟨?_, ?_, ?_, ?_⟩
      · simpa [Greedy.fed, hneutral] using h.alpha
      · simpa [Greedy.fed, hneutral] using h.beta
      · simpa [Greedy.fed, hneutral] using h.step
      · by_cases ha : a.toNat = arm
        · refine ⟨learn p.step (Greedy.bounded r) e, ?_,
            Measured.learn h.step (measured_bounded (hr ha hneutral)) hmeasured⟩
          simp [Greedy.fed, hneutral, ha, he]
        · refine ⟨e, ?_, hmeasured⟩
          simp [Greedy.fed, hneutral, ha, he]

theorem feed [Random.Drawing Float γ] (h : p.Spares arm) {a : ActionId} {r : Reward Float}
    (hr : Sparing arm a r) : (moves.feed p (a, r)).Spares arm := by
  by_cases ha : a.toNat < p.arms
  · rw [lawful.feed_of_lt ha]
    exact h.fed hr
  · rwa [lawful.feed_of_le (Nat.le_of_not_lt ha)]

/-- The spared arm keeps a value that is a number, so there is a candidate. -/
theorem candidates_ne_nil (h : p.Spares arm) : p.candidates ≠ [] := by
  obtain ⟨e, he, hmeasured⟩ := h.measured
  have hvalue : p.weights.blend e.delivery e.energy ∈ p.values :=
    List.mem_map.mpr ⟨e, List.mem_of_getElem? he, rfl⟩
  have hdefined := hmeasured.blend ⟨h.alpha, rfl⟩ ⟨h.beta, rfl⟩
  intro hnil
  have hundefined : (p.weights.blend e.delivery e.energy).isNaN = true :=
    (candidates_eq_nil_iff.mp hnil).2 _ hvalue
  rw [hdefined] at hundefined
  cases hundefined

theorem exists_select [Random.Drawing Float γ] [Random.Bounded Float γ] [Random.Willing Float γ]
    (h : p.Spares arm) : ∃ a p', p.select = some (a, p') ∧ p'.Spares arm := by
  cases hselect : p.select with
  | none =>
      have hnone := (select_eq_none_iff (Nat.zero_lt_of_lt h.lt_arms)).mp hselect
      exact absurd hnone.2 h.candidates_ne_nil
  | some drawn =>
      refine ⟨drawn.1, drawn.2, rfl, ?_⟩
      rw [select_eq] at hselect
      obtain ⟨d, -, rfl⟩ := Option.map_eq_some_iff.mp hselect
      exact ⟨h.alpha, h.beta, h.step, h.measured⟩

end Spares

end Greedy

/-! ## Draws of the unit interval -/

theorem Random.drawUnit_holds (g : Gen) :
    ∃ v, Holds (drawUnit g).1 v ∧ 0 ≤ v ∧ v < 1 := by
  obtain ⟨n, hn, hword⟩ : ∃ n : UInt64, n.toNat < 2 ^ 53 ∧
      (drawUnit g).1 = n.toFloat * (1.0 / 9007199254740992.0) := by
    refine ⟨g.next.1 >>> 11, ?_, rfl⟩
    rw [UInt64.toNat_shiftRight, Nat.shiftRight_eq_div_pow]
    exact Nat.div_lt_of_lt_mul g.next.1.toNat_lt
  have hunit : Holds (1.0 / 9007199254740992.0) (2 ^ (-53 : ℤ)) := by
    have hform : form (1.0 / 9007199254740992.0) =
      .finite .positive (2 ^ 52) (-105) (by norm_num) := rfl
    refine ⟨rfl, ?_⟩
    rw [hform, value, signed, two_zpow_eq (-53) 52]
    norm_num
  have hlt : (n.toNat : ℚ) * 2 ^ (-53 : ℤ) < 1 := by
    have hn' : (n.toNat : ℚ) < 2 ^ (53 : ℤ) := by exact_mod_cast hn
    rwa [zpow_neg, mul_inv_lt_iff₀ (by positivity), one_mul]
  have hdouble : IsDouble (n.toNat * 2 ^ (-53 : ℤ)) :=
    ⟨n.toNat, -53, by simpa using mod_cast hn.le, by norm_num, by simp⟩
  have hnonneg : (0 : ℚ) ≤ n.toNat * 2 ^ (-53 : ℤ) := by positivity
  refine ⟨_, hword ▸ ((holds_toFloat hn).mul hunit).holds_of_isDouble hdouble ?_, hnonneg, hlt⟩
  rw [abs_of_nonneg hnonneg]
  exact hlt.trans (one_lt_zpow₀ one_lt_two (by norm_num))

/-- What is drawn is never below zero. -/
theorem Random.not_drawUnit_lt_zero (g : Gen) : ¬(drawUnit g).1 < 0.0 := by
  obtain ⟨v, hv, hnonneg, -⟩ := drawUnit_holds g
  rwa [hv.lt_iff_lt holds_zero, not_lt]

/-! ## The owner goes on -/

section

variable {α γ : Type} [Arith α] [Random.Drawing α γ]

theorem Policy.feed_greedy (p : Greedy α γ) (u : ActionId × Reward α) :
    Policy.moves.feed (.greedy p) u = .greedy (Greedy.moves.feed p u) := by
  simp only [Moves.feed, Policy.moves, Policy.update, Greedy.moves]
  cases p.update u.1 u.2 <;> rfl

end

/-- An owner whose policy can draw after what it is fed gives an answer and goes on. -/
theorem Owner.exists_answer {P : Type} [Learner P] {policy : P}
    {update : Option (ActionId × Reward Float)}
    (h : ∃ drawn, Learner.select (feed policy update).2 = some drawn) :
    ∃ answer rest, (create policy).step update = (some answer, create rest) := by
  obtain ⟨drawn, hselect⟩ := h
  exact ⟨⟨drawn.1, (feed policy update).1⟩, drawn.2, by simp [step, create, hselect]⟩

namespace Greedy

variable {γ : Type} [Random.Drawing Float γ] [Random.Bounded Float γ] [Random.Willing Float γ]

theorem Spares.exists_answer {arm : Nat} {p : Greedy Float γ} (h : p.Spares arm)
    {update : Option (ActionId × Reward Float)}
    (hupdate : ∀ a r, update = some (a, r) → Sparing arm a r) :
    ∃ answer rest,
      (Owner.create (Policy.greedy p)).step update = (some answer, Owner.create rest) := by
  obtain ⟨fed, hfed, hspares⟩ :
      ∃ fed, (Owner.feed (Policy.greedy p) update).2 = .greedy fed ∧ fed.Spares arm := by
    cases update with
    | none => exact ⟨p, rfl, h⟩
    | some u =>
        refine ⟨moves.feed p u, ?_, h.feed (hupdate u.1 u.2 rfl)⟩
        rw [← Policy.feed_greedy, Owner.feed, Moves.feed]
        simp only [Policy.moves, Learner.update]
        cases (Policy.greedy p).update u.1 u.2 <;> rfl
  obtain ⟨a, p', hselect, -⟩ := hspares.exists_select
  exact Owner.exists_answer
    ⟨(a, .greedy p'), by simp [hfed, Learner.select, Policy.select, hselect]⟩

/-- As long as one arm of a new policy is spared, every run comes to its end, whatever is fed for
the other arms; there is a candidate after it, and an owner of the policy gives one more answer and
goes on. -/
theorem draws_while_an_arm_is_spared {arms arm : Nat} (harm : arm < arms) {epsilon : Float}
    {step : Option Float} {weights : Weights Float} (hweights : weights.check = .ok ()) {source : γ}
    {p : Policy Float γ}
    (hcreate : Policy.create arms (.greedy epsilon step) weights source = .ok p)
    {xs : List (Turn Float)} (hspared : ∀ a r, .feed a r ∈ xs → Sparing arm a r) :
    ∃ drawn q, Policy.moves.play p xs = (drawn, some (.greedy q)) ∧ q.candidates ≠ [] ∧
      ∀ update : Option (ActionId × Reward Float),
        (∀ a r, update = some (a, r) → Sparing arm a r) →
        ∃ answer rest,
          (Owner.create (Policy.greedy q)).step update = (some answer, Owner.create rest) := by
  obtain ⟨p, hp, rfl⟩ := Policy.create_eq_ok_iff.mp hcreate
  obtain ⟨-, -, hstep, rfl⟩ := Greedy.create_eq_ok_iff.mp hp
  have hinitial : (initial arms epsilon step weights source).Spares arm :=
    spares_initial harm hweights (isStep_of_check hstep)
  have hrun : ∃ drawn last,
      Policy.moves.play (.greedy (initial arms epsilon step weights source)) xs =
        (drawn, some last) ∧ ∃ q : Greedy Float γ, last = .greedy q ∧ q.Spares arm := by
    apply Policy.moves.exists_play _ _ ⟨_, rfl, hinitial⟩
    · rintro _ a r hmem ⟨q, rfl, hq⟩
      exact ⟨_, Policy.feed_greedy q (a, r), hq.feed (hspared a r hmem)⟩
    · rintro _ ⟨q, rfl, hq⟩
      obtain ⟨a, q', hselect, hq'⟩ := hq.exists_select
      exact ⟨a, .greedy q', by simp [Policy.moves, Policy.select, hselect], q', rfl, hq'⟩
  obtain ⟨drawn, _, hplay, q, rfl, hq⟩ := hrun
  exact ⟨drawn, q, hplay, hq.candidates_ne_nil, fun update hupdate => hq.exists_answer hupdate⟩

section

/-- A reward for the telemetry of a transmission that took half of the range in joules. -/
private def flood : Reward Float :=
  ⟨Weights.standard.blend 1.0 (halfRange / 0.05), 1.0, halfRange / 0.05, false⟩

/-- Two arms with a reference of five hundredths of a joule, of which the best is always drawn. -/
private def twoArms : Greedy Float Random.Gen := .initial 2 0.0 none .standard (.ofSeed 3)

/-- One arm is fed a reward of one joule, the other one is flooded. -/
private def floodedRun : List (Turn Float) :=
  [.feed (.ofNat 1) flood, .draw, .feed (.ofNat 0) ⟨-9.0, 1.0, 20.0, false⟩,
    .feed (.ofNat 1) flood, .draw]

theorem draws_while_an_arm_is_spared_floodedRun :
    (0 < 2 ∧ Weights.standard.check = .ok () ∧
      Policy.create 2 (.greedy 0.0 none) .standard (Random.Gen.ofSeed 3) = .ok (.greedy twoArms) ∧
      ∀ a r, .feed a r ∈ floodedRun → Sparing 0 a r) ∧
    ∃ drawn q, Policy.moves.play (.greedy twoArms) floodedRun = (drawn, some (.greedy q)) ∧
      q.candidates ≠ [] ∧ ∃ answer rest,
        (Owner.create (Policy.greedy q)).step (some (.ofNat 1, flood)) =
          (some answer, Owner.create rest) := by
  have hweights : Weights.standard.check = .ok () := rfl
  have hcreate : Policy.create 2 (.greedy 0.0 none) .standard (Random.Gen.ofSeed 3) =
      .ok (.greedy twoArms) := rfl
  have hflood (hzero : (ActionId.ofNat 1).toNat = 0) : False := absurd hzero (by decide)
  have hspared : ∀ a r, .feed a r ∈ floodedRun → Sparing 0 a r := by
    intro a r hmem
    simp only [floodedRun, List.mem_cons, Turn.feed.injEq, reduceCtorEq, List.not_mem_nil, or_false,
      false_or] at hmem
    rcases hmem with ⟨rfl, rfl⟩ | ⟨rfl, rfl⟩ | ⟨rfl, rfl⟩
    · exact fun hzero => (hflood hzero).elim
    · intro _ _
      decide
    · exact fun hzero => (hflood hzero).elim
  obtain ⟨drawn, q, hplay, hcandidates, hanswer⟩ :=
    draws_while_an_arm_is_spared (by decide : 0 < 2) hweights hcreate hspared
  refine ⟨⟨by decide, hweights, hcreate, hspared⟩, drawn, q, hplay, hcandidates, hanswer _ ?_⟩
  rintro a r ⟨rfl, rfl⟩
  exact fun hzero => (hflood hzero).elim

/-- One arm alone. -/
private def oneArm : Greedy Float Random.Gen := .initial 1 0.0 none .standard (.ofSeed 3)

/-- With only one arm, two such rewards leave no candidate: the next draw ends the owner. -/
theorem flooded_arm_leaves_no_candidate :
    ∃ r p q, Weights.standard.combine ⟨some 1.0, some halfRange⟩ = .ok r ∧
      Weights.standard.check = .ok () ∧
      Policy.create 1 (.greedy 0.0 none) .standard (Random.Gen.ofSeed 3) = .ok p ∧
      Policy.moves.play p [.feed (.ofNat 0) r, .feed (.ofNat 0) r] = ([], some (.greedy q)) ∧
      q.candidates = [] ∧
      (Owner.create (Policy.greedy q)).step none = (none, ⟨.greedy q, false⟩) := by
  have hcandidates : ((oneArm.fed 0 flood).fed 0 flood).candidates = [] := by decide +kernel
  have hselect : ((oneArm.fed 0 flood).fed 0 flood).select = none := by
    have harms : 0 < ((oneArm.fed 0 flood).fed 0 flood).arms := by
      rw [arms_fed, arms_fed]
      decide
    exact (select_eq_none_iff harms).mpr
      ⟨decide_eq_false (Random.not_drawUnit_lt_zero _), hcandidates⟩
  refine ⟨flood, .greedy oneArm, (oneArm.fed 0 flood).fed 0 flood, rfl, rfl, rfl, rfl,
    hcandidates, ?_⟩
  simp [Owner.step, Owner.create, Owner.feed, Learner.select, Policy.select, hselect]

end

end Greedy

end LinkTuner

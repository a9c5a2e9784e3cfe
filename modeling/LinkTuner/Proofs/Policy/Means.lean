import LinkTuner.Proofs.Arith.Exact
import LinkTuner.Proofs.Policy.Candidates
import LinkTuner.Proofs.Policy.Distribution

/-!
# What estimates are

Estimates are moved one reward at a time. Main statement, calculated exactly: without a step size
the estimates of an arm are the means of the deliveries and energies that the telling rewards of a
run had for it, each brought back into range, whatever else the run does; with a step size they stay
between zero and the greatest of these.
-/

namespace LinkTuner.Greedy

/-! ## The rewards of one arm -/

section

variable {α γ : Type}

/-- The reward of a turn, if it tells something about an arm. -/
def tellingOf (arm : Nat) : Turn α → Option (Reward α)
  | .draw => none
  | .feed a r => if a.toNat = arm ∧ r.neutral = false then some r else none

/-- The telling rewards of a run for one arm, in their order. -/
def telling (arm : Nat) (xs : List (Turn α)) : List (Reward α) := xs.filterMap (tellingOf arm)

theorem telling_append (arm : Nat) (xs ys : List (Turn α)) :
    telling arm (xs ++ ys) = telling arm xs ++ telling arm ys := List.filterMap_append

variable [Arith α]

/-- What is known of an arm after telling rewards for it. -/
def learnAll (step : Option α) (e : ArmEstimate α) (rs : List (Reward α)) : ArmEstimate α :=
  rs.foldl (fun e r => learn step (bounded r) e) e

theorem learnAll_concat (step : Option α) (e : ArmEstimate α) (rs : List (Reward α))
    (r : Reward α) :
    learnAll step e (rs ++ [r]) = learn step (bounded r) (learnAll step e rs) := by
  simp [learnAll]

variable [Random.Drawing α γ]

theorem parameters_feed (p : Greedy α γ) (u : ActionId × Reward α) :
    (moves.feed p u).epsilon = p.epsilon ∧ (moves.feed p u).step = p.step := by
  by_cases h : u.1.toNat < p.arms
  · rw [lawful.feed_of_lt h, fed]
    split <;> exact ⟨rfl, rfl⟩
  · rw [lawful.feed_of_le (Nat.le_of_not_lt h)]
    exact ⟨rfl, rfl⟩

theorem exists_source_of_select {p p' : Greedy α γ} {a : ActionId}
    (h : p.select = some (a, p')) : ∃ source, p' = { p with source } := by
  rw [select_eq] at h
  obtain ⟨d, -, heq⟩ := Option.map_eq_some_iff.mp h
  cases heq
  exact ⟨d.2, rfl⟩

/-- A reward is learnt by its own arm and only if it tells something. -/
theorem estimates_feed (p : Greedy α γ) (a : ActionId) (r : Reward α) (arm : Nat) :
    (moves.feed p (a, r)).estimates[arm]? =
      p.estimates[arm]?.map fun e => learnAll p.step e (tellingOf arm (.feed a r)).toList := by
  by_cases h : a.toNat < p.arms
  · rw [lawful.feed_of_lt h, fed]
    cases hneutral : r.neutral with
    | true => simp [tellingOf, hneutral, learnAll]
    | false => by_cases harm : a.toNat = arm <;> simp [tellingOf, hneutral, harm, learnAll]
  · have hle := Nat.le_of_not_lt h
    have hkept : moves.feed p (a, r) = p := lawful.feed_of_le hle
    rw [hkept]
    by_cases harm : a.toNat = arm
    · have hnone : p.estimates[arm]? = none := List.getElem?_eq_none (harm ▸ hle)
      simp [hnone]
    · simp [tellingOf, harm, learnAll]

/-- After a run an arm knows what its own telling rewards taught it. -/
theorem estimates_play {p q : Greedy α γ} {xs : List (Turn α)} {drawn : List ActionId}
    (h : moves.play p xs = (drawn, some q)) (arm : Nat) :
    q.estimates[arm]? = p.estimates[arm]?.map fun e => learnAll p.step e (telling arm xs) := by
  induction xs generalizing p drawn with
  | nil =>
      cases h
      simp [telling, learnAll]
  | cons turn rest ih =>
      cases turn with
      | feed a r =>
          rw [ih h, estimates_feed, (parameters_feed p (a, r)).2, Option.map_map]
          cases htold : tellingOf arm (.feed a r) <;>
            simp [telling, htold, learnAll, Function.comp_def]
      | draw =>
          obtain ⟨a, p', later, hselect, hrest, -⟩ := moves.exists_select_of_play h
          obtain ⟨source, rfl⟩ := exists_source_of_select hselect
          rw [ih hrest]
          rfl

/-- What a new strategy knows of an arm after a run. -/
theorem estimates_play_initial {arms : Nat} {epsilon : α} {step : Option α} {weights : Weights α}
    {source : γ} {xs : List (Turn α)} {drawn : List ActionId} {q : Greedy α γ}
    (h : moves.play (initial arms epsilon step weights source) xs = (drawn, some q)) (arm : Nat) :
    q.estimates[arm]? =
      if arm < arms then some (learnAll step ⟨0, 0, 0⟩ (telling arm xs)) else none := by
  rw [estimates_play h, initial, List.getElem?_replicate]
  split <;> rfl

end

/-! ## Exact estimates -/

section

variable {K γ : Type} [ExactNumbers K]

open Arith

/-- The mean of numbers; of no numbers it is zero. -/
def mean (xs : List K) : K := xs.sum / xs.length

/-- The deliveries of rewards, brought into the unit interval. -/
def deliveries (rs : List (Reward K)) : List K := rs.map fun r => max 0 (min 1 r.delivery)

/-- The energies of rewards, those below zero counted as zero. -/
def energies (rs : List (Reward K)) : List K := rs.map fun r => max 0 r.energy

theorem bounded_eq (r : Reward K) : bounded r = (max 0 (min 1 r.delivery), max 0 r.energy) := by
  simp [bounded, clamp_eq zero_le_one, greater_eq_max, max_comm]

/-- Taking one number more into a mean. -/
theorem mean_concat (xs : List K) (x : K) :
    mean (xs ++ [x]) = mean xs + 1 / ((xs.length + 1 : ℕ) : K) * (x - mean xs) := by
  have hcount : (xs.length + 1 : K) ≠ 0 := Nat.cast_add_one_ne_zero _
  have hsum : xs.sum = mean xs * xs.length := by
    cases xs with
    | nil => simp [mean]
    | cons y ys => exact (div_mul_cancel₀ _ (Nat.cast_ne_zero.mpr (Nat.succ_ne_zero _))).symm
  calc mean (xs ++ [x])
      = (xs.sum + x) / (xs.length + 1) := by simp [mean]
    _ = (mean xs * xs.length + x) / (xs.length + 1) := by rw [hsum]
    _ = mean xs + 1 / ((xs.length + 1 : ℕ) : K) * (x - mean xs) := by
        push_cast
        field_simp
        ring

theorem mean_eq_of_perm {xs ys : List K} (h : xs.Perm ys) : mean xs = mean ys := by
  rw [mean, mean, h.sum_eq, h.length_eq]

/-- Without a step size the count is taken before the share, so that every reward weighs the same.
-/
theorem learnAll_none (rs : List (Reward K)) :
    learnAll none ⟨0, 0, 0⟩ rs = ⟨mean (deliveries rs), mean (energies rs), rs.length⟩ := by
  induction rs using List.reverseRecOn with
  | nil => simp [learnAll, deliveries, energies, mean]
  | append_singleton rs r ih =>
      have hdelivery := mean_concat (deliveries rs) (max 0 (min 1 r.delivery))
      have henergy := mean_concat (energies rs) (max 0 r.energy)
      rw [deliveries, energies, List.map_append, List.map_append, List.map_singleton,
        List.map_singleton, ← deliveries, ← energies, hdelivery, henergy, learnAll_concat, ih]
      simp [learn, bounded_eq, deliveries, energies]

/-- A share of the way from one number to another stays between bounds of the two. -/
theorem moved_mem {c x y low high : K} (hzero : 0 ≤ c) (hone : c ≤ 1)
    (hx : x ∈ Set.Icc low high) (hy : y ∈ Set.Icc low high) :
    x + c * (y - x) ∈ Set.Icc low high := by
  have hmix : x + c * (y - x) = (1 - c) * x + c * y := by ring
  have hrest : 0 ≤ 1 - c := sub_nonneg.mpr hone
  rw [hmix]
  constructor
  · calc low = (1 - c) * low + c * low := by ring
      _ ≤ (1 - c) * x + c * y := by gcongr; exacts [hx.1, hy.1]
  · calc (1 - c) * x + c * y ≤ (1 - c) * high + c * high := by gcongr; exacts [hx.2, hy.2]
      _ = high := by ring

/-- A step size is above zero and at most one. -/
def IsShare (step : Option K) : Prop := ∀ c, step = some c → 0 < c ∧ c ≤ 1

/-- So is the share by which a mean moves. -/
theorem IsShare.getD {step : Option K} (h : IsShare step) (n : ℕ) :
    0 ≤ step.getD (1 / ((n + 1 : ℕ) : K)) ∧ step.getD (1 / ((n + 1 : ℕ) : K)) ≤ 1 := by
  cases step with
  | none =>
      have hone : (1 : K) ≤ (n + 1 : ℕ) := by exact_mod_cast Nat.succ_pos n
      have hpos := zero_lt_one.trans_le hone
      exact ⟨(one_div_pos.mpr hpos).le, (div_le_one hpos).mpr hone⟩
  | some c => exact ⟨(h c rfl).1.le, (h c rfl).2⟩

/-- The estimates of an arm are within the range of the rewards it learnt. -/
structure InRange (rs : List (Reward K)) (e : ArmEstimate K) : Prop where
  delivery : e.delivery ∈ Set.Icc 0 1
  energy_nonneg : 0 ≤ e.energy
  /-- Before there is any energy the estimate is zero. -/
  energy_le : ∃ j ∈ 0 :: energies rs, e.energy ≤ j

theorem inRange_learnAll {step : Option K} (hstep : IsShare step) (rs : List (Reward K)) :
    InRange rs (learnAll step ⟨0, 0, 0⟩ rs) := by
  induction rs using List.reverseRecOn with
  | nil => exact ⟨by simp [learnAll], le_rfl, 0, by simp, le_rfl⟩
  | append_singleton rs r ih =>
      rw [learnAll_concat]
      generalize learnAll step ⟨0, 0, 0⟩ rs = e at ih
      obtain ⟨hzero, hone⟩ := hstep.getD e.count
      have hdelivery : (bounded r).1 ∈ Set.Icc 0 1 := by simp [bounded_eq]
      have hnonneg : 0 ≤ (bounded r).2 := by simp [bounded_eq]
      have henergy : (learn step (bounded r) e).energy ∈ Set.Icc 0 (max e.energy (bounded r).2) :=
        moved_mem hzero hone ⟨ih.energy_nonneg, le_max_left ..⟩ ⟨hnonneg, le_max_right ..⟩
      refine ⟨moved_mem hzero hone ih.delivery hdelivery, henergy.1, ?_⟩
      obtain ⟨j, hj, hle⟩ := ih.energy_le
      rcases le_total e.energy (bounded r).2 with hless | hmore
      · refine ⟨(bounded r).2, ?_, henergy.2.trans (max_le hless le_rfl)⟩
        simp [energies, bounded_eq]
      · refine ⟨j, ?_, henergy.2.trans ((max_le le_rfl hmore).trans hle)⟩
        rw [energies, List.map_append, ← energies, ← List.cons_append]
        exact List.mem_append_left _ hj

/-! ## Runs -/

/-- Every arm has a value that is a number, so there is always a candidate. -/
theorem candidates_ne_nil {p : Greedy K γ} (harms : 0 < p.arms) : p.candidates ≠ [] := by
  rw [Ne, candidates_eq_nil_iff]
  rintro ⟨-, hundefined⟩
  obtain ⟨e, he⟩ := List.exists_mem_of_length_pos harms
  cases hundefined _ (List.mem_map.mpr ⟨e, he, rfl⟩)

theorem exists_select_exact [Random.Drawing K γ] [Random.Bounded K γ] [Random.Willing K γ]
    {p : Greedy K γ} (harms : 0 < p.arms) :
    ∃ a p', moves.select p = some (a, p') ∧ 0 < p'.arms := by
  cases hselect : p.select with
  | none => exact absurd ((select_eq_none_iff harms).mp hselect).2 (candidates_ne_nil harms)
  | some d => exact ⟨d.1, d.2, hselect, by rwa [arms_of_select hselect]⟩

theorem exists_play_exact [Random.Drawing K γ] [Random.Bounded K γ] [Random.Willing K γ]
    {p : Greedy K γ} (harms : 0 < p.arms) (xs : List (Turn K)) :
    ∃ drawn q, moves.play p xs = (drawn, some q) := by
  obtain ⟨drawn, q, hplay, -⟩ := moves.exists_play
    (fun p a r _ (hp : 0 < p.arms) => hp.trans_eq (lawful.arms_feed p (a, r)).symm)
    (fun _ hp => exists_select_exact hp) harms
  exact ⟨drawn, q, hplay⟩

/-- Means do not depend on the order of what they are taken of. -/
theorem learnAll_none_of_perm {rs rs' : List (Reward K)} (h : rs.Perm rs') :
    learnAll none ⟨0, 0, 0⟩ rs = learnAll none ⟨0, 0, 0⟩ rs' := by
  have hdeliveries : (deliveries rs).Perm (deliveries rs') := h.map _
  have henergies : (energies rs).Perm (energies rs') := h.map _
  rw [learnAll_none, learnAll_none, mean_eq_of_perm hdeliveries, mean_eq_of_perm henergies,
    h.length_eq]

/-- In every run of a new strategy, whatever it draws and feeds in between, an arm learns from its
own telling rewards and from nothing else. Its estimates stay in their range, and are zero as long as
there was no such reward. Without a step size they are the means of all of them, so that their order
does not matter. -/
theorem estimates_are_means_of_own_rewards [Random.Drawing K γ] [Random.Bounded K γ]
    [Random.Willing K γ] {arms : ℕ} {epsilon : K} {step : Option K} {weights : Weights K}
    {source : γ} {p : Greedy K γ} (hcreate : create arms epsilon step weights source = .ok p)
    (xs : List (Turn K)) :
    ∃ drawn q, moves.play p xs = (drawn, some q) ∧
      (∀ arm < arms, ∃ e, q.estimates[arm]? = some e ∧ InRange (telling arm xs) e ∧
        (telling arm xs = [] → e = ⟨0, 0, 0⟩) ∧
        (step = none → e = ⟨mean (deliveries (telling arm xs)), mean (energies (telling arm xs)),
          (telling arm xs).length⟩)) ∧
      (step = none → ∀ ys, (∀ arm < arms, (telling arm xs).Perm (telling arm ys)) →
        ∃ drawn' q', moves.play p ys = (drawn', some q') ∧ q'.estimates = q.estimates) := by
  obtain ⟨harms, -, hstep, rfl⟩ := create_eq_ok_iff.mp hcreate
  have hshare : IsShare step := by
    intro c hc
    simpa using hstep c hc
  have hpos : 0 < (initial arms epsilon step weights source).arms := by
    simpa using Nat.pos_of_ne_zero harms
  obtain ⟨drawn, q, hplay⟩ := exists_play_exact hpos xs
  refine ⟨drawn, q, hplay, fun arm harm => ?_, ?_⟩
  · refine ⟨_, (estimates_play_initial hplay arm).trans (if_pos harm), inRange_learnAll hshare _,
      fun hnone => by rw [hnone]; rfl, ?_⟩
    rintro rfl
    exact learnAll_none _
  · rintro rfl ys hperm
    obtain ⟨drawn', q', hplay'⟩ := exists_play_exact hpos ys
    refine ⟨drawn', q', hplay', List.ext_getElem? fun arm => ?_⟩
    rw [estimates_play_initial hplay, estimates_play_initial hplay']
    split
    next harm => rw [learnAll_none_of_perm (hperm arm harm)]
    next => rfl

end

section

/-- A source that draws places in turn keeps to its bounds and never refuses. -/
instance : Random.Bounded ℝ Exponential.InTurn where
  below_lt {bound n g g'} h := by
    simp only [Random.Drawing.below] at h
    split at h
    · cases h
    next hbound =>
      cases h
      exact Nat.mod_lt _ (Nat.pos_of_ne_zero hbound)
  weighted_lt {ws i g g'} h := by
    simp only [Random.Drawing.weighted] at h
    split at h
    · cases h
    next hws =>
      cases h
      exact Nat.mod_lt _ (List.length_pos_iff.mpr fun hnil => hws (List.isEmpty_iff.mpr hnil))

instance : Random.Willing ℝ Exponential.InTurn where
  below_isSome _ _ h := ⟨_, if_neg h.ne'⟩

/-- Rewards of two arms, two of them out of range; one that tells nothing, and one for an arm that
does not exist. -/
private noncomputable def mixedRun : List (Turn ℝ) :=
  [.feed (.ofNat 0) ⟨0, 1 + 1, 1, false⟩, .draw, .feed (.ofNat 1) ⟨0, 1, 1, false⟩,
    .feed (.ofNat 0) .uninformative, .draw, .feed (.ofNat 3) ⟨0, 1, 1, false⟩,
    .feed (.ofNat 0) ⟨0, 0, -1, false⟩]

theorem estimates_are_means_of_own_rewards_mixedRun :
    (∃ p, create 3 (1 / 10 : ℝ) none ⟨1, 1 / 2, 1⟩ (Exponential.InTurn.mk 0) = .ok p ∧
      ∃ drawn q, moves.play p mixedRun = (drawn, some q) ∧
        q.estimates[0]? = some ⟨1 / 2, 1 / 2, 2⟩ ∧ q.estimates[2]? = some ⟨0, 0, 0⟩) ∧
    ∃ p, create 3 (1 / 10 : ℝ) (some (1 / 4)) ⟨1, 1 / 2, 1⟩ (Exponential.InTurn.mk 0) = .ok p ∧
      ∃ drawn q, moves.play p mixedRun = (drawn, some q) ∧
        ∃ e, q.estimates[0]? = some e ∧ e.delivery ∈ Set.Icc 0 1 ∧ e.energy ∈ Set.Icc 0 1 := by
  have hcreate (step : Option ℝ) (hstep : ∀ c, step = some c → 0 < c ∧ c ≤ 1) :
      create 3 (1 / 10 : ℝ) step ⟨1, 1 / 2, 1⟩ (Exponential.InTurn.mk 0) =
        .ok (initial 3 (1 / 10) step ⟨1, 1 / 2, 1⟩ ⟨0⟩) := by
    refine create_eq_ok_iff.mpr ⟨by decide, by norm_num, fun c hc => ?_, rfl⟩
    simpa using hstep c hc
  have hfirst : telling 0 mixedRun = [⟨0, 1 + 1, 1, false⟩, ⟨0, 0, -1, false⟩] := rfl
  have hlast : telling 2 mixedRun = [] := rfl
  constructor
  · refine ⟨_, hcreate none (by simp), ?_⟩
    obtain ⟨drawn, q, hplay, harms, -⟩ :=
      estimates_are_means_of_own_rewards (hcreate none (by simp)) mixedRun
    obtain ⟨e, he, -, -, hmean⟩ := harms 0 (by decide)
    obtain ⟨e', he', -, hzero, -⟩ := harms 2 (by decide)
    refine ⟨drawn, q, hplay, ?_, hzero hlast ▸ he'⟩
    rw [he, hmean rfl, hfirst]
    norm_num [mean, deliveries, energies]
  · have hshare : ∀ c, some (1 / 4 : ℝ) = some c → 0 < c ∧ c ≤ 1 := by
      rintro c ⟨⟩
      norm_num
    refine ⟨_, hcreate _ hshare, ?_⟩
    obtain ⟨drawn, q, hplay, harms, -⟩ :=
      estimates_are_means_of_own_rewards (hcreate _ hshare) mixedRun
    obtain ⟨e, he, hrange, -⟩ := harms 0 (by decide)
    refine ⟨drawn, q, hplay, e, he, hrange.delivery, hrange.energy_nonneg, ?_⟩
    obtain ⟨j, hj, hle⟩ := hrange.energy_le
    refine hle.trans ?_
    rw [hfirst] at hj
    simp only [energies, List.map_cons, List.map_nil, List.mem_cons, List.not_mem_nil,
      or_false] at hj
    rcases hj with rfl | rfl | rfl <;> norm_num

end

end LinkTuner.Greedy

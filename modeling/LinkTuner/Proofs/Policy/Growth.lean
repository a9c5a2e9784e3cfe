import LinkTuner.Proofs.Policy.Means

/-!
# How fast log-weights grow

A reward is divided by how likely its arm was, which is never less than the share that every arm is
given. So, calculated exactly, it raises the log-weight of its arm by one at most, more for a greater
reward but no more beyond the bounds. Main statement: after every run the log-weight of an arm lies
between zero and the number of its telling rewards, and making the probabilities anew exponentiates
no number above zero and divides by none that is zero.
-/

namespace LinkTuner

/-- Exact numbers whose exponential function is one at zero. -/
class UnitalNumbers (K : Type) extends ExactNumbers K where
  exponential_zero : exponential 0 = 1

noncomputable instance : UnitalNumbers ℝ where
  exponential_zero := Real.exp_zero

namespace Exponential

open Arith

/-! ## What a reward adds -/

section

variable {α γ : Type} [Arith α] {arms : Nat} {gamma low high : α}

/-- The parameters of a strategy. -/
structure Tuned (arms : Nat) (gamma low high : α) (p : Exponential α γ) : Prop where
  arms_eq : p.arms = arms
  gamma_eq : p.gamma = gamma
  low_eq : p.low = low
  high_eq : p.high = high

theorem tuned_initial (arms : Nat) (gamma low high : α) (source : γ) :
    (initial arms gamma low high source).Tuned arms gamma low high :=
  ⟨List.length_replicate, rfl, rfl, rfl⟩

variable [Random.Drawing α γ] {p p' q : Exponential α γ}

theorem Tuned.feed (h : p.Tuned arms gamma low high) (u : ActionId × Reward α) :
    (moves.feed p u).Tuned arms gamma low high := by
  by_cases haction : u.1.toNat < p.arms
  · rw [lawful.feed_of_lt haction]
    have harms := (arms_fed p u.1.toNat u.2).trans h.arms_eq
    cases hneutral : u.2.neutral <;>
      exact ⟨harms, by simp [fed, hneutral, h.gamma_eq], by simp [fed, hneutral, h.low_eq],
        by simp [fed, hneutral, h.high_eq]⟩
  · rwa [lawful.feed_of_le (Nat.le_of_not_lt haction)]

omit [Arith α] in
theorem Tuned.select (h : p.Tuned arms gamma low high) {a : ActionId}
    (hselect : p.select = some (a, p')) : p'.Tuned arms gamma low high := by
  obtain ⟨drawn, -, heq⟩ := Option.map_eq_some_iff.mp hselect
  cases heq
  exact ⟨h.arms_eq, h.gamma_eq, h.low_eq, h.high_eq⟩

/-- No run changes the parameters. -/
theorem Tuned.play (h : p.Tuned arms gamma low high) {xs : List (Turn α)} {drawn : List ActionId}
    (hplay : moves.play p xs = (drawn, some q)) : q.Tuned arms gamma low high :=
  moves.invariant_play (fun _ a r _ hp => hp.feed (a, r)) (fun _ _ _ hp hs => hp.select hs) h hplay

end

section

variable {K γ : Type} [ExactNumbers K] {arms : Nat} {gamma low high : K} {p : Exponential K γ}

/-- What a reward adds to a log-weight, as a function of the reward: from nothing to one, no less
for a greater reward, and the same for all rewards below the lower bound and for all above the upper
one. -/
structure Increment (low high : K) (f : K → K) : Prop where
  nonneg : ∀ x, 0 ≤ f x
  le_one : ∀ x, f x ≤ 1
  monotone : Monotone f
  below : ∀ x ≤ low, f x = f low
  above : ∀ x, high ≤ x → f x = f high

theorem Increment.mul_const {f : K → K} {c : K} (h : Increment low high f) (hzero : 0 ≤ c)
    (hone : c ≤ 1) : Increment low high fun x => f x * c where
  nonneg x := mul_nonneg (h.nonneg x) hzero
  le_one x := mul_le_one₀ (h.le_one x) hzero hone
  monotone _ _ hxy := mul_le_mul_of_nonneg_right (h.monotone hxy) hzero
  below x hx := congrArg (· * c) (h.below x hx)
  above x hx := congrArg (· * c) (h.above x hx)

/-- The place of a number between bounds, the numbers outside brought to the nearest one. -/
theorem increment_place (hbounds : low < high) :
    Increment low high fun x => (max low (min high x) - low) / (high - low) := by
  have hpos : 0 < high - low := sub_pos.mpr hbounds
  constructor
  · intro x
    exact div_nonneg (sub_nonneg.mpr (le_max_left ..)) hpos.le
  · intro x
    have hle : max low (min high x) ≤ high := max_le hbounds.le (min_le_left ..)
    exact (div_le_one hpos).mpr (sub_le_sub_right hle low)
  · intro x y hxy
    dsimp only
    gcongr
  · intro x hx
    simp only [min_eq_right (hx.trans hbounds.le), max_eq_left hx, min_eq_right hbounds.le, max_self]
  · intro x hx
    simp only [min_eq_left hx, min_self]

theorem normalize_eq (h : p.Tuned arms gamma low high) (hbounds : low < high) :
    p.normalize = fun x => (max low (min high x) - low) / (high - low) := by
  funext x
  simp [normalize, bounded, h.low_eq, h.high_eq, clamp_eq hbounds.le]

/-- What is added is the share of the unit interval that the least probability is of the chance. -/
theorem gain_eq (p : Exponential K γ) (arm : Nat) (x : K) :
    p.gain arm x = p.normalize x * (p.floor / p.chance arm) := by
  simp only [gain, estimate, floor]
  ring

theorem floor_le_chance (p : Exponential K γ) (arm : Nat) : p.floor ≤ p.chance arm := by
  rw [chance, greater_eq_max]
  exact le_max_right ..

theorem floor_pos (h : p.Tuned arms gamma low high) (harms : 0 < arms) (hpos : 0 < gamma) :
    0 < p.floor := by
  rw [floor, h.gamma_eq, h.arms_eq]
  exact div_pos hpos (Nat.cast_pos.mpr harms)

/-- A reward adds at most one: its arm counts as no less likely than the least probability. -/
theorem increment_gain (h : p.Tuned arms gamma low high) (harms : 0 < arms) (hpos : 0 < gamma)
    (hbounds : low < high) (arm : Nat) : Increment low high (p.gain arm) := by
  have hfloor := floor_pos h harms hpos
  have hchance := hfloor.trans_le (floor_le_chance p arm)
  have hgain : p.gain arm = fun x => p.normalize x * (p.floor / p.chance arm) :=
    funext (gain_eq p arm)
  rw [hgain, normalize_eq h hbounds]
  exact (increment_place hbounds).mul_const (div_pos hfloor hchance).le
    ((div_le_one hchance).mpr (floor_le_chance p arm))

/-- A telling reward raises the log-weight of its arm and no other one. -/
theorem logWeights_fed (p : Exponential K γ) (arm : Nat) {r : Reward K} (hr : r.neutral = false) :
    (p.fed arm r).logWeights = p.logWeights.modify arm (· + p.gain arm r.value) := by
  simp [fed, hr]

/-! ## How far a run raises a log-weight -/

section

variable [Random.Drawing K γ] {q : Exponential K γ} {arm : Nat} {w : K}

theorem logWeight_feed (h : p.Tuned arms gamma low high) (harms : 0 < arms) (hpos : 0 < gamma)
    (hbounds : low < high) (a : ActionId) (r : Reward K) (hw : p.logWeights[arm]? = some w) :
    ∃ v, (moves.feed p (a, r)).logWeights[arm]? = some v ∧ w ≤ v ∧
      v ≤ w + (Greedy.telling arm [.feed a r]).length := by
  by_cases haction : a.toNat < p.arms
  · rw [lawful.feed_of_lt haction]
    cases hneutral : r.neutral with
    | true => exact ⟨w, by simp [fed, hneutral, hw], le_rfl, by simp⟩
    | false =>
        rw [logWeights_fed p _ hneutral]
        by_cases harm : a.toNat = arm
        · have hgain := increment_gain h harms hpos hbounds arm
          have hone : Greedy.telling arm [.feed a r] = [r] := by
            simp [Greedy.telling, Greedy.tellingOf, harm, hneutral]
          refine ⟨w + p.gain arm r.value, by simp [harm, hw], ?_, ?_⟩
          · exact le_add_of_nonneg_right (hgain.nonneg r.value)
          · simpa [hone] using hgain.le_one r.value
        · exact ⟨w, by simp [harm, hw], le_rfl, by simp⟩
  · rw [lawful.feed_of_le (Nat.le_of_not_lt haction)]
    exact ⟨w, hw, le_rfl, by simp⟩

/-- A run raises a log-weight by one at most for each telling reward of its arm. -/
theorem logWeight_play (h : p.Tuned arms gamma low high) (harms : 0 < arms) (hpos : 0 < gamma)
    (hbounds : low < high) {xs : List (Turn K)} {drawn : List ActionId}
    (hplay : moves.play p xs = (drawn, some q)) (hw : p.logWeights[arm]? = some w) :
    ∃ v, q.logWeights[arm]? = some v ∧ w ≤ v ∧ v ≤ w + (Greedy.telling arm xs).length := by
  induction xs generalizing p drawn w with
  | nil =>
      cases hplay
      exact ⟨w, hw, le_rfl, by simp⟩
  | cons turn rest ih =>
      cases turn with
      | feed a r =>
          obtain ⟨v, hv, hge, hle⟩ := logWeight_feed h harms hpos hbounds a r hw
          obtain ⟨u, hu, hge', hle'⟩ := ih (h.feed (a, r)) hplay hv
          have hsplit := Greedy.telling_append arm [.feed a r] rest
          refine ⟨u, hu, hge.trans hge', hle'.trans ?_⟩
          rw [← List.singleton_append, hsplit, List.length_append, Nat.cast_add, ← add_assoc]
          exact add_le_add_left hle _
      | draw =>
          obtain ⟨a, p', later, hselect, hrest, -⟩ := moves.exists_select_of_play hplay
          obtain ⟨d, -, heq⟩ := Option.map_eq_some_iff.mp hselect
          cases heq
          exact ih (h.select hselect) hrest hw

end

/-! ## Making the probabilities anew -/

/-- What is exponentiated to make the probabilities of log-weights. -/
def exponents (ws : List K) : List K := ws.map (· - greatest ws)

theorem shifted_eq_map_exp (ws : List K) : shifted ws = (exponents ws).map exp := by
  simp [shifted, exponents, Function.comp_def]

/-- Division, refused by zero. -/
def quotient? (x y : K) : Option K := if y = 0 then none else some (x / y)

/-- The distribution that log-weights stand for, with no division by zero. -/
def distribution? (gamma : K) (ws : List K) : Option (List K) := do
  let relative := shifted ws
  let total := sum relative
  let least ← quotient? gamma (ws.length : K)
  let parts ← relative.mapM fun w => (quotient? ((1 - gamma) * w) total).map (· + least)
  parts.mapM (quotient? · (sum parts))

theorem exponents_nonpos {ws : List K} {x : K} (hx : x ∈ exponents ws) : x ≤ 0 := by
  obtain ⟨w, hw, rfl⟩ := List.mem_map.mp hx
  exact sub_nonpos.mpr (le_iff.mp (le_greatest hw rfl))

theorem zero_mem_exponents {ws : List K} (h : ws ≠ []) : 0 ∈ exponents ws :=
  List.mem_map.mpr ⟨greatest ws, greatest_mem h, sub_self _⟩

theorem quotient?_of_ne {y : K} (h : y ≠ 0) (x : K) : quotient? x y = some (x / y) := if_neg h

theorem mapM_some {β δ : Type} (f : β → δ) (xs : List β) :
    (xs.mapM fun x => some (f x)) = some (xs.map f) := List.mapM_pure ..

/-- No division by zero is met: the weights sum to more than zero, and the shares to one. -/
theorem distribution?_eq (gamma : K) {ws : List K} (h : ws ≠ []) :
    distribution? gamma ws = some (distribution gamma ws) := by
  have htotal : sum (shifted ws) ≠ 0 := by
    rw [sum_eq]
    exact (sum_shifted_pos h).ne'
  have hparts : sum (mixed gamma ws) ≠ 0 := by
    rw [sum_eq, sum_mixed gamma h]
    exact one_ne_zero
  have hmixed : ((shifted ws).mapM fun w =>
      (quotient? ((1 - gamma) * w) (sum (shifted ws))).map (· + gamma / ws.length)) =
      some (mixed gamma ws) := by
    simp only [quotient?_of_ne htotal, Option.map_some]
    exact mapM_some _ _
  simp only [distribution?, quotient?_of_ne (length_cast_pos h).ne', Option.bind_eq_bind,
    Option.bind_some, hmixed, quotient?_of_ne hparts]
  exact mapM_some _ _

end

section

variable {K γ : Type} [UnitalNumbers K] {arms : Nat} {gamma low high : K}

theorem exp_zero : exp (0 : K) = 1 := UnitalNumbers.exponential_zero

/-- The greatest weight counts as one and no other as more, so they sum to one at least. -/
theorem one_le_sum_shifted {ws : List K} (h : ws ≠ []) : 1 ≤ sum (shifted ws) := by
  have hnonneg : ∀ x ∈ shifted ws, 0 ≤ x := by
    intro x hx
    obtain ⟨w, -, rfl⟩ := List.mem_map.mp hx
    exact (exp_pos _).le
  have hone : 1 ∈ shifted ws := by
    rw [shifted_eq_map_exp]
    exact List.mem_map.mpr ⟨0, zero_mem_exponents h, exp_zero⟩
  rw [sum_eq]
  exact List.single_le_sum hnonneg 1 hone

theorem sum_shifted_le (ws : List K) : sum (shifted ws) ≤ ws.length := by
  have hle : ∀ x ∈ shifted ws, x ≤ 1 := by
    rw [shifted_eq_map_exp]
    intro x hx
    obtain ⟨y, hy, rfl⟩ := List.mem_map.mp hx
    exact (exp_le_exp.mpr (exponents_nonpos hy)).trans_eq exp_zero
  have hsum := List.sum_le_card_nsmul (shifted ws) 1 hle
  rw [sum_eq]
  simpa [shifted] using hsum

/-- Making the probabilities of log-weights anew: no number above zero is exponentiated, but zero
is; the weights sum to a number from one to that of the arms; nothing is divided by zero. -/
structure Recomputed (arms : Nat) (gamma : K) (ws probabilities : List K) : Prop where
  shifted_eq : shifted ws = (exponents ws).map exp
  exponents_nonpos : ∀ x ∈ exponents ws, x ≤ 0
  zero_mem_exponents : 0 ∈ exponents ws
  one_le_total : 1 ≤ sum (shifted ws)
  total_le : sum (shifted ws) ≤ arms
  distribution?_eq : distribution? gamma ws = some probabilities

theorem recomputed {ws : List K} (harms : 0 < arms) (hlength : ws.length = arms) :
    Recomputed arms gamma ws (distribution gamma ws) := by
  have hne : ws ≠ [] := List.ne_nil_of_length_pos (hlength.symm ▸ harms)
  exact
    { shifted_eq := shifted_eq_map_exp ws
      exponents_nonpos := fun _ hx => exponents_nonpos hx
      zero_mem_exponents := zero_mem_exponents hne
      one_le_total := one_le_sum_shifted hne
      total_le := hlength ▸ sum_shifted_le ws
      distribution?_eq := distribution?_eq gamma hne }

/-- What a run has made of the log-weights, and what any further reward makes of them. -/
structure Tempered (arms : Nat) (gamma low high : K) (xs : List (Turn K)) (q : Exponential K γ) :
    Prop where
  /-- No log-weight is below zero or above the number of telling rewards of its arm. -/
  between : ∀ arm < arms, ∃ w, q.logWeights[arm]? = some w ∧ 0 ≤ w ∧
    w ≤ ((Greedy.telling arm xs).length : K)
  /-- A reward is divided by the distance of the bounds and by a chance that is no less than the
  least probability. -/
  divisors : q.low < q.high ∧ 0 < q.floor ∧ ∀ arm, q.floor ≤ q.chance arm
  /-- A telling reward raises the log-weight of its arm by an increment, and no other one. -/
  raises : ∀ a : ActionId, a.toNat < arms → ∃ f, Increment low high f ∧
    ∀ r, r.neutral = false → ∃ q', q.update a r = .ok q' ∧
      q'.logWeights = q.logWeights.modify a.toNat (· + f r.value) ∧
      Recomputed arms gamma q'.logWeights q'.probabilities

/-- Calculated exactly, in every run of a strategy that was created a telling reward raises the
log-weight of its arm by one at most, more for a greater reward within the bounds. So log-weights
lie between zero and the number of such rewards, and the probabilities are made anew without an
overflow or a division by zero. -/
theorem rewards_raise_log_weights_by_one_at_most [Random.Drawing K γ] {low high : Option K}
    {source : γ} {p : Exponential K γ} (hcreate : create arms gamma low high source = .ok p)
    {xs : List (Turn K)} {drawn : List ActionId} {q : Exponential K γ}
    (hplay : moves.play p xs = (drawn, some q)) :
    q.Tempered arms gamma (low.getD 0) (high.getD 1) xs := by
  obtain ⟨hne, hgamma, -, hbounds, rfl⟩ := create_eq_ok_iff.mp hcreate
  have harms : 0 < arms := Nat.pos_of_ne_zero hne
  have hpos : 0 < gamma := lt_iff.mp (Bool.and_eq_true_iff.mp hgamma).1
  have hlt : low.getD 0 < high.getD 1 := not_le.mp (of_decide_eq_false hbounds)
  have hinitial := tuned_initial arms gamma (low.getD 0) (high.getD 1) source
  have hq := hinitial.play hplay
  constructor
  · intro arm harm
    have hzero : (initial arms gamma (low.getD 0) (high.getD 1) source).logWeights[arm]? =
        some 0 := by simp [initial, harm]
    obtain ⟨w, hw, hge, hle⟩ := logWeight_play hinitial harms hpos hlt hplay hzero
    exact ⟨w, hw, hge, by simpa using hle⟩
  · exact ⟨by rwa [hq.low_eq, hq.high_eq], floor_pos hq harms hpos, floor_le_chance q⟩
  · intro a ha
    refine ⟨q.gain a.toNat, increment_gain hq harms hpos hlt a.toNat, fun r hr => ?_⟩
    refine ⟨q.fed a.toNat r, update_of_lt (hq.arms_eq.symm ▸ ha) r, logWeights_fed q _ hr, ?_⟩
    have hprobabilities : (q.fed a.toNat r).probabilities =
        distribution gamma (q.fed a.toNat r).logWeights := by
      simp [fed, hr, hq.gamma_eq]
    rw [hprobabilities]
    exact recomputed harms ((arms_fed q a.toNat r).trans hq.arms_eq)

section

/-- Rewards of one arm above and below the bounds, a neutral one of another arm, and one for an arm
that does not exist. -/
private noncomputable def strayingRun : List (Turn ℝ) :=
  [.draw, .feed (.ofNat 0) (.ofValue 9), .feed (.ofNat 0) (.ofValue (-1)), .draw,
    .feed (.ofNat 1) .uninformative, .feed (.ofNat 3) (.ofValue 1)]

theorem rewards_raise_log_weights_by_one_at_most_strayingRun :
    ∃ p, create 3 (1 / 2 : ℝ) none (some 2) (InTurn.mk 0) = .ok p ∧
      ∃ q, moves.play p strayingRun = ([0, 1].map .ofNat, some q) ∧
        q.Tempered 3 (1 / 2) 0 2 strayingRun ∧
        (∃ w, q.logWeights[0]? = some w ∧ 0 ≤ w ∧ w ≤ 2) ∧ q.logWeights[1]? = some 0 := by
  have hcreate : create 3 (1 / 2 : ℝ) none (some 2) (InTurn.mk 0) =
      .ok (initial 3 (1 / 2) 0 2 ⟨0⟩) :=
    create_eq_ok_iff.mpr ⟨by decide, by norm_num, by simp, by norm_num [Arith.le], rfl⟩
  obtain ⟨q, hplay⟩ : ∃ q, moves.play (initial 3 (1 / 2 : ℝ) 0 2 (InTurn.mk 0)) strayingRun =
      ([0, 1].map .ofNat, some q) := ⟨_, rfl⟩
  have htempered := rewards_raise_log_weights_by_one_at_most hcreate hplay
  have hfirst : Greedy.telling 0 strayingRun = [.ofValue 9, .ofValue (-1)] := rfl
  have hsecond : Greedy.telling 1 strayingRun = [] := rfl
  obtain ⟨w, hw, hge, hle⟩ := htempered.between 0 (by decide)
  obtain ⟨v, hv, hge', hle'⟩ := htempered.between 1 (by decide)
  rw [hfirst] at hle
  rw [hsecond] at hle'
  have hzero : v = 0 := le_antisymm (by simpa using hle') hge'
  exact ⟨_, hcreate, q, hplay, htempered, ⟨w, hw, hge, by simpa using hle⟩, hzero ▸ hv⟩

end

end

end Exponential

end LinkTuner

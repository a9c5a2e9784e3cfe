import LinkTuner.Proofs.Arith.Exact
import LinkTuner.Proofs.Policy.Creation
import LinkTuner.Proofs.Policy.Play

/-!
# The distribution of exponential weights

Calculated exactly, the probabilities of every run are those that its log-weights stand for: they
sum to one before they are made to, none is less than the uniform share, and they order the arms as
the log-weights do. The uniform distribution that a run begins with is the one of equal log-weights,
so it is no exception.
-/

namespace LinkTuner.Exponential

open Arith

variable {K γ : Type} [ExactNumbers K] {gamma : K} {ws : List K}

/-- The probability of an arm with log-weight `w` among the log-weights `ws`. -/
def portion (gamma : K) (ws : List K) (w : K) : K :=
  (1 - gamma) * exp (w - greatest ws) / (shifted ws).sum + gamma / (ws.length : K)

theorem mixed_eq_map_portion (gamma : K) (ws : List K) :
    mixed gamma ws = ws.map (portion gamma ws) := by
  simp only [mixed, sum_eq]
  simp [shifted, portion, Function.comp_def]

theorem sum_shifted_pos (h : ws ≠ []) : 0 < (shifted ws).sum := by
  apply List.sum_pos
  · intro x hx
    obtain ⟨w, -, rfl⟩ := List.mem_map.mp hx
    exact exp_pos _
  · simpa [shifted] using h

theorem length_cast_pos (h : ws ≠ []) : (0 : K) < ws.length := by
  exact_mod_cast List.length_pos_iff.mpr h

theorem sum_mixed (gamma : K) (h : ws ≠ []) : (mixed gamma ws).sum = 1 := by
  have hshifted : (shifted ws).sum ≠ 0 := (sum_shifted_pos h).ne'
  have hlength : (ws.length : K) ≠ 0 := (length_cast_pos h).ne'
  have hsum : (ws.map fun w => exp (w - greatest ws)).sum = (shifted ws).sum := rfl
  calc (mixed gamma ws).sum
      = (ws.map fun w => (1 - gamma) / (shifted ws).sum * exp (w - greatest ws) +
          gamma / ws.length).sum := by
        rw [mixed_eq_map_portion]
        congr 2
        funext w
        rw [portion, mul_div_right_comm]
    _ = (1 - gamma) / (shifted ws).sum * (shifted ws).sum + ws.length * (gamma / ws.length) := by
        rw [List.sum_map_add, List.sum_map_mul_left, hsum, List.map_const', List.sum_replicate,
          nsmul_eq_mul]
    _ = 1 := by
        field_simp
        ring

/-- Probabilities that sum to one are not changed by being made to. -/
theorem distribution_eq_mixed (gamma : K) (h : ws ≠ []) :
    distribution gamma ws = mixed gamma ws := by
  simp [distribution, sum_eq, sum_mixed gamma h]

theorem le_portion (hone : gamma ≤ 1) (h : ws ≠ []) (w : K) :
    gamma / ws.length ≤ portion gamma ws w := by
  have hweight : 0 ≤ (1 - gamma) * exp (w - greatest ws) / (shifted ws).sum :=
    div_nonneg (mul_nonneg (sub_nonneg.mpr hone) (exp_pos _).le) (sum_shifted_pos h).le
  unfold portion
  linarith

theorem portion_le_portion_iff (hone : gamma < 1) (h : ws ≠ []) {w v : K} :
    portion gamma ws w ≤ portion gamma ws v ↔ w ≤ v := by
  unfold portion
  rw [add_le_add_iff_right, div_le_div_iff_of_pos_right (sum_shifted_pos h),
    mul_le_mul_iff_of_pos_left (sub_pos.mpr hone), exp_le_exp, sub_le_sub_iff_right]

theorem portion_one (ws : List K) (w : K) : portion 1 ws w = 1 / ws.length := by
  simp [portion]

/-- Equal log-weights stand for the uniform distribution. -/
theorem mixed_replicate (gamma : K) {n : Nat} (hn : 0 < n) (w : K) :
    mixed gamma (List.replicate n w) = List.replicate n (1 / (n : K)) := by
  have hws : List.replicate n w ≠ [] := by simpa using hn.ne'
  have hsum := sum_mixed gamma hws
  rw [mixed_eq_map_portion, List.map_replicate, List.sum_replicate, nsmul_eq_mul] at hsum
  rw [mixed_eq_map_portion, List.map_replicate, eq_one_div_of_mul_eq_one_right hsum]

/-! ## Runs -/

/-- The probabilities are those that the log-weights stand for. -/
structure Faithful (arms : Nat) (gamma : K) (p : Exponential K γ) : Prop where
  gamma_eq : p.gamma = gamma
  arms_eq : p.arms = arms
  probabilities_eq : p.probabilities = mixed gamma p.logWeights

theorem faithful_initial {arms : Nat} (harms : 0 < arms) (gamma low high : K) (source : γ) :
    (initial arms gamma low high source).Faithful arms gamma where
  gamma_eq := rfl
  arms_eq := List.length_replicate
  probabilities_eq := (mixed_replicate gamma harms 0).symm

namespace Faithful

variable {arms : Nat} {p : Exponential K γ}

theorem logWeights_ne_nil (h : p.Faithful arms gamma) (harms : 0 < arms) : p.logWeights ≠ [] := by
  have hlength : p.logWeights.length = arms := h.arms_eq
  rw [← List.length_pos_iff, hlength]
  exact harms

theorem fed (h : p.Faithful arms gamma) (harms : 0 < arms) (arm : Nat) (r : Reward K) :
    (p.fed arm r).Faithful arms gamma := by
  cases hr : r.neutral with
  | true => simpa [Exponential.fed, hr] using ⟨h.gamma_eq, h.arms_eq, h.probabilities_eq⟩
  | false =>
      refine ⟨by simp [Exponential.fed, hr, h.gamma_eq], (arms_fed p arm r).trans h.arms_eq, ?_⟩
      have hws : p.logWeights.modify arm (· + p.gain arm r.value) ≠ [] := by
        simpa using h.logWeights_ne_nil harms
      simp only [Exponential.fed, hr]
      exact h.gamma_eq ▸ distribution_eq_mixed p.gamma hws

theorem feed [Random.Drawing K γ] (h : p.Faithful arms gamma) (harms : 0 < arms)
    (u : ActionId × Reward K) : (moves.feed p u).Faithful arms gamma := by
  by_cases haction : u.1.toNat < p.arms
  · rw [lawful.feed_of_lt haction]
    exact h.fed harms _ _
  · rwa [lawful.feed_of_le (Nat.le_of_not_lt haction)]

theorem select [Random.Drawing K γ] (h : p.Faithful arms gamma) {a : ActionId}
    {p' : Exponential K γ} (hselect : p.select = some (a, p')) : p'.Faithful arms gamma := by
  obtain ⟨drawn, -, heq⟩ := Option.map_eq_some_iff.mp hselect
  cases heq
  exact ⟨h.gamma_eq, h.arms_eq, h.probabilities_eq⟩

theorem play [Random.Drawing K γ] (h : p.Faithful arms gamma) (harms : 0 < arms)
    {xs : List (Turn K)} {drawn : List ActionId} {q : Exponential K γ}
    (hplay : moves.play p xs = (drawn, some q)) : q.Faithful arms gamma := by
  apply moves.invariant_play _ _ h hplay
  · intro p a r _ hp
    exact hp.feed harms (a, r)
  · intro p a p' hp hselect
    exact hp.select hselect

end Faithful

/-! ## What a run keeps -/

/-- The probabilities are a distribution that leaves each arm its uniform share and prefers arms as
their weights do. -/
structure SpreadsOver (arms : Nat) (gamma : K) (p : Exponential K γ) : Prop where
  arms_eq : p.arms = arms
  length_probabilities : p.probabilities.length = arms
  sum_probabilities : p.probabilities.sum = 1
  share_le : ∀ x ∈ p.probabilities, gamma / (arms : K) ≤ x
  /-- Short of drawing uniformly, more weight is more probability. -/
  le_iff : gamma < 1 → ∀ arm < arms, ∀ other < arms,
    (p.probabilities.getD arm 0 ≤ p.probabilities.getD other 0 ↔
      p.logWeights.getD arm 0 ≤ p.logWeights.getD other 0)
  /-- The arm that is shown as the best has the greatest weight. -/
  best : ∃ arm < arms, p.snapshot.best = some (.ofNat arm) ∧
    (gamma < 1 → ∀ other < arms, p.logWeights.getD other 0 ≤ p.logWeights.getD arm 0)
  uniform : gamma = 1 → p.probabilities = List.replicate arms (1 / (arms : K))
  /-- What a reward makes of the log-weights sums to one without being made to. -/
  renormalized : ∀ arm value,
    distribution p.gamma (p.raised arm value) = mixed p.gamma (p.raised arm value)

namespace Faithful

variable {arms : Nat} {p : Exponential K γ}

theorem length_logWeights (h : p.Faithful arms gamma) : p.logWeights.length = arms := h.arms_eq

theorem probabilities_eq_map (h : p.Faithful arms gamma) :
    p.probabilities = p.logWeights.map (portion gamma p.logWeights) := by
  rw [h.probabilities_eq, mixed_eq_map_portion]

theorem length_probabilities (h : p.Faithful arms gamma) : p.probabilities.length = arms := by
  rw [h.probabilities_eq_map, List.length_map, h.length_logWeights]

theorem probability_eq (h : p.Faithful arms gamma) {arm : Nat} (harm : arm < arms) :
    p.probabilities.getD arm 0 = portion gamma p.logWeights (p.logWeights.getD arm 0) := by
  have hlt : arm < p.logWeights.length := h.length_logWeights.symm ▸ harm
  simp [h.probabilities_eq_map, List.getElem?_eq_getElem hlt]

theorem le_iff (h : p.Faithful arms gamma) (hone : gamma < 1) {arm other : Nat} (harm : arm < arms)
    (hother : other < arms) :
    p.probabilities.getD arm 0 ≤ p.probabilities.getD other 0 ↔
      p.logWeights.getD arm 0 ≤ p.logWeights.getD other 0 := by
  rw [h.probability_eq harm, h.probability_eq hother]
  exact portion_le_portion_iff hone (h.logWeights_ne_nil (Nat.zero_lt_of_lt harm))

/-- The best arm is one of those whose probability no other exceeds. -/
theorem exists_best (h : p.Faithful arms gamma) (harms : 0 < arms) :
    ∃ arm < arms, p.snapshot.best = some (.ofNat arm) ∧
      ∀ other < arms, p.probabilities.getD other 0 ≤ p.probabilities.getD arm 0 := by
  have hne : p.probabilities ≠ [] := by
    rw [← List.length_pos_iff, h.length_probabilities]
    exact harms
  obtain ⟨arm, x, hfound, hgreatest⟩ := exists_lastGreatest hne
  obtain ⟨hlt, -⟩ := List.getElem?_eq_some_iff.mp hgreatest.get
  refine ⟨arm, h.length_probabilities ▸ hlt, by simp [Snapshot.best, snapshot, hfound], ?_⟩
  intro other hother
  rw [← h.length_probabilities] at hother
  have hle := totalLe_iff.mp (hgreatest.le_of_mem _ (List.getElem_mem hother))
  simpa [List.getElem?_eq_getElem hother, hgreatest.get] using hle

theorem spreadsOver (h : p.Faithful arms gamma) (harms : 0 < arms) (hone : gamma ≤ 1) :
    p.SpreadsOver arms gamma where
  arms_eq := h.arms_eq
  length_probabilities := h.length_probabilities
  sum_probabilities := h.probabilities_eq ▸ sum_mixed gamma (h.logWeights_ne_nil harms)
  share_le x hx := by
    rw [h.probabilities_eq_map] at hx
    obtain ⟨w, -, rfl⟩ := List.mem_map.mp hx
    exact h.length_logWeights ▸ le_portion hone (h.logWeights_ne_nil harms) w
  le_iff hgamma arm harm other hother := h.le_iff hgamma harm hother
  best := by
    obtain ⟨arm, harm, hbest, hle⟩ := h.exists_best harms
    exact ⟨arm, harm, hbest, fun hgamma other hother =>
      (h.le_iff hgamma hother harm).mp (hle other hother)⟩
  uniform hgamma := by
    subst hgamma
    rw [h.probabilities_eq_map, ← h.length_logWeights]
    exact List.eq_replicate_iff.mpr ⟨List.length_map .., fun x hx => by
      obtain ⟨w, -, rfl⟩ := List.mem_map.mp hx
      exact portion_one _ w⟩
  renormalized arm value := by
    apply distribution_eq_mixed
    simpa [raised] using h.logWeights_ne_nil harms

end Faithful

/-- Calculated exactly, every run of the strategy keeps a distribution that sums to one, leaves each
arm its uniform share and orders the arms as their weights do. -/
theorem runs_spread_over_arms [Random.Drawing K γ] {arms : Nat} {gamma : K} {low high : Option K}
    (harms : 0 < arms) (hpos : 0 < gamma) (hone : gamma ≤ 1) (hbounds : low.getD 0 < high.getD 1)
    (source : γ) :
    ∃ p, create arms gamma low high source = .ok p ∧
      ∀ xs drawn q, moves.play p xs = (drawn, some q) → q.SpreadsOver arms gamma := by
  refine ⟨initial arms gamma (low.getD 0) (high.getD 1) source, ?_, ?_⟩
  · exact create_eq_ok_iff.mpr ⟨harms.ne', by simp [hpos, hone], by simp,
      by simp [Arith.le, hbounds], rfl⟩
  · intro xs drawn q hplay
    have hinitial := faithful_initial harms gamma (low.getD 0) (high.getD 1) source
    exact (hinitial.play harms hplay).spreadsOver harms hone

/-- A source that draws places in turn. -/
structure InTurn where
  next : Nat

noncomputable instance : Random.Drawing ℝ InTurn where
  unit g := (0, g)
  below bound g := if bound = 0 then none else some (g.next % bound, ⟨g.next + 1⟩)
  weighted ws g := if ws.isEmpty then .error .noItem else .ok (g.next % ws.length, ⟨g.next + 1⟩)

section

/-- Two rewards, one of them above the bounds, and one for an arm that does not exist. -/
private noncomputable def rewardedRun : List (Turn ℝ) :=
  [.draw, .draw, .feed (.ofNat 1) (.ofValue 1), .draw, .feed (.ofNat 0) (.ofValue 7),
    .feed (.ofNat 3) (.ofValue 1), .draw]

theorem runs_spread_over_arms_rewardedRun :
    (0 < 3 ∧ (0 : ℝ) < 1 / 2 ∧ (1 / 2 : ℝ) ≤ 1 ∧ (none : Option ℝ).getD 0 < (some 2).getD 1) ∧
      ∃ p, create 3 (1 / 2 : ℝ) none (some 2) (InTurn.mk 0) = .ok p ∧
        ∃ q, moves.play p rewardedRun = ([0, 1, 2, 0].map .ofNat, some q) ∧
          q.SpreadsOver 3 (1 / 2) := by
  have hbounds : (none : Option ℝ).getD 0 < (some 2).getD 1 := by norm_num
  obtain ⟨p, hcreate, hruns⟩ := runs_spread_over_arms (by decide : 0 < 3)
    (by norm_num : (0 : ℝ) < 1 / 2) (by norm_num) hbounds (InTurn.mk 0)
  refine ⟨⟨by decide, by norm_num, by norm_num, hbounds⟩, p, hcreate, ?_⟩
  obtain ⟨-, -, -, -, rfl⟩ := create_eq_ok_iff.mp hcreate
  obtain ⟨q, hq⟩ : ∃ q, moves.play (initial 3 (1 / 2 : ℝ) 0 2 (InTurn.mk 0)) rewardedRun =
      ([0, 1, 2, 0].map .ofNat, some q) := ⟨_, rfl⟩
  exact ⟨q, hq, hruns _ _ _ hq⟩

end

end LinkTuner.Exponential

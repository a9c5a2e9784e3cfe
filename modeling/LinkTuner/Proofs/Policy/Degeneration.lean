import LinkTuner.Proofs.Config.Startable
import LinkTuner.Proofs.Policy.Candidates
import LinkTuner.Proofs.Policy.Estimates
import LinkTuner.Proofs.Policy.Spread

/-!
# When exponential weights degenerate

Reward bounds are accepted if they are finite and in order; their distance is not looked at, and can
be too large for a double. Main statement: as long as no reward overflows, which none can if the
distance is finite, log-weights and probabilities are numbers throughout every run and every arm is
drawn by its probability. One reward that overflows makes a log-weight and with it all probabilities
undefined for good, and every later draw is uniform.

The log-weights are kept by a scale: either what is added to them is so small that they stay close
to each other, or they may become so large that it is lost in rounding.
-/

namespace LinkTuner

open Double

namespace Exponential

variable {exp : Float → Float}

/-! ## One reward -/

/-- The reward, brought back between the bounds, is so far from the lower one that the distance is
too large for a double. -/
def Overflows {γ : Type} (p : Exponential Float γ) (value : Float) : Prop :=
  (p.bounded value - p.low).isFinite = false

/-- What the parameters of a strategy stand for. -/
structure Built (p : Exponential Float Random.Gen) (arms : ℕ) (g a b : ℚ) : Prop where
  gamma : Holds p.gamma g
  gamma_pos : 0 < g
  gamma_le : g ≤ 1
  low : Holds p.low a
  high : Holds p.high b
  low_lt_high : a < b
  arms_eq : p.arms = arms
  arms_pos : 0 < arms
  arms_le : arms ≤ 2 ^ 16

/-- How far log-weights and what is added to them go: never so far that the addition changes a
log-weight of `2 ^ k`. That is so because the chance of an arm is never below `2 ^ -s`, either as
that is less than the least probability, or as the log-weights are close to each other. -/
structure Scale (arms : ℕ) (g : ℚ) (s k : ℤ) : Prop where
  s_nonneg : 0 ≤ s
  s_le : s ≤ 900
  le_k : -900 ≤ k
  k_le : k ≤ 900
  gain_le : g * 2 ^ s ≤ 2 ^ (k - 54)
  chance : 2 ^ (-s) ≤ g / arms ∨ s = 35 ∧ k ≤ -1

theorem exists_scale {arms : ℕ} {g : ℚ} (harms : 0 < arms) (hmany : arms ≤ 2 ^ 16) (hone : g ≤ 1) :
    ∃ s k, Scale arms g s k := by
  have hcast : (0 : ℚ) < arms := by exact_mod_cast harms
  have hmany' : (arms : ℚ) ≤ 2 ^ (16 : ℤ) := by exact_mod_cast hmany
  rcases le_total (2 ^ (-200 : ℤ)) g with hlarge | hsmall
  · refine ⟨216, 270, by norm_num, by norm_num, by norm_num, by norm_num, ?_, .inl ?_⟩
    · exact mul_le_of_le_one_left (by positivity) hone
    · rw [le_div_iff₀ hcast]
      calc (2 : ℚ) ^ (-216 : ℤ) * arms ≤ 2 ^ (-216 : ℤ) * 2 ^ (16 : ℤ) := by gcongr
        _ = 2 ^ (-200 : ℤ) := by norm_num
        _ ≤ g := hlarge
  · refine ⟨35, -111, by norm_num, by norm_num, by norm_num, by norm_num, ?_,
      .inr ⟨rfl, by norm_num⟩⟩
    calc g * 2 ^ (35 : ℤ) ≤ 2 ^ (-200 : ℤ) * 2 ^ (35 : ℤ) := by gcongr
      _ = 2 ^ (-111 - 54 : ℤ) := by norm_num

namespace Built

variable {p : Exponential Float Random.Gen} {arms : ℕ} {g a b : ℚ} {value : Float} {s k : ℤ}

theorem exists_holds_bounded (h : p.Built arms g a b) (value : Float) :
    ∃ c, Holds (p.bounded value) c ∧ a ≤ c ∧ c ≤ b := by
  unfold bounded
  split
  next => exact ⟨a, h.low, le_rfl, h.low_lt_high.le⟩
  next hdefined =>
    unfold Arith.clamp
    split_ifs with hlow hhigh
    · exact ⟨a, h.low, le_rfl, h.low_lt_high.le⟩
    · exact ⟨b, h.high, h.low_lt_high.le, le_rfl⟩
    · exact exists_holds_of_between h.low h.high (Bool.eq_false_iff.mpr hdefined)
        (fun hlt => hlow (decide_eq_true hlt)) (fun hlt => hhigh (decide_eq_true hlt))

/-- No reward overflows unless the distance of the bounds does. -/
theorem not_overflows (h : p.Built arms g a b) (hfinite : (p.high - p.low).isFinite = true)
    (value : Float) : ¬p.Overflows value := by
  obtain ⟨c, hc, hle, hge⟩ := h.exists_holds_bounded value
  obtain ⟨u, w, hu, -⟩ := hc.exists_sub_le h.high h.low hle hge hfinite
  have hfinite' : (p.bounded value - p.low).isFinite = true := hu.finite
  rw [Overflows, hfinite']
  exact Bool.noConfusion

theorem lies_normalize (h : p.Built arms g a b) (hno : ¬p.Overflows value) :
    Lies (p.normalize value) 0 1 := by
  obtain ⟨c, hc, hle, hge⟩ := h.exists_holds_bounded value
  cases hfinite : (p.high - p.low).isFinite with
  | true =>
      obtain ⟨u, w, hu, hw, hzero, huw⟩ := hc.exists_sub_le h.high h.low hle hge hfinite
      have hpos := h.high.sub_pos h.low h.low_lt_high hw
      exact (hu.div hw hpos.ne').lies edge_zero edge_one (div_nonneg hzero hpos.le)
        ((div_le_one hpos).mpr huw)
  | false =>
      have hnumerator : (p.bounded value - p.low).isFinite = true := by simpa [Overflows] using hno
      have hinfinite := (h.high.sub h.low).isInf_of_not_isFinite hfinite
      have hholds : Holds (p.bounded value - p.low) _ := ⟨hnumerator, rfl⟩
      exact ⟨0, hholds.div_of_isInf hinfinite, le_rfl, zero_le_one⟩

/-- A reward that overflows is a quotient of infinities. -/
theorem isNaN_normalize (h : p.Built arms g a b) (ho : p.Overflows value) :
    (p.normalize value).isNaN = true := by
  obtain ⟨c, hc, -⟩ := h.exists_holds_bounded value
  have hfinite : (p.high - p.low).isFinite = false :=
    Bool.eq_false_iff.mpr fun hfinite => h.not_overflows hfinite value ho
  exact isNaN_div_of_isInf ((hc.sub h.low).isInf_of_not_isFinite ho)
    ((h.high.sub h.low).isInf_of_not_isFinite hfinite)

theorem isNaN_gain (h : p.Built arms g a b) (ho : p.Overflows value) (arm : ℕ) :
    (p.gain arm value).isNaN = true :=
  isNaN_div_of_left (isNaN_mul_of_right (isNaN_div_of_left (h.isNaN_normalize ho)))

/-- The chance that a reward is divided by is not small. -/
theorem exists_holds_chance (h : p.Built arms g a b) (hscale : Scale arms g s k)
    (hsampling : Spread (2 ^ (-35 : ℤ)) 0 (k ≤ -1) p.sampling) {arm : ℕ}
    (harm : arm < p.sampling.length) : ∃ c, Holds (p.chance arm) c ∧ 2 ^ (-s) ≤ c := by
  obtain ⟨f, hf, -, -, hge⟩ := least_bounds h.gamma h.gamma_pos h.gamma_le h.arms_pos h.arms_le
  have hmem : p.sampling[arm] ∈ p.sampling := List.getElem_mem harm
  obtain ⟨v, hv, -⟩ := hsampling.lies _ hmem
  have hchance : p.chance arm = Arith.greater p.sampling[arm] (p.gamma / Float.ofNat arms) := by
    rw [chance, List.getD_eq_getElem _ _ harm, floor, h.arms_eq]
    rfl
  refine ⟨max v f, hchance ▸ hv.greater hf, ?_⟩
  obtain hleast | ⟨rfl, hk⟩ := hscale.chance
  · have hs := hscale.s_le
    exact (hge _ (isDouble_zpow (by omega)) hleast).trans (le_max_right _ _)
  · obtain ⟨v', hv', hlow, -⟩ := hsampling.all hk _ hmem
    rw [hv'.unique hv] at hlow
    exact hlow.trans (le_max_left _ _)

theorem lies_gain (h : p.Built arms g a b) (hscale : Scale arms g s k)
    (hsampling : Spread (2 ^ (-35 : ℤ)) 0 (k ≤ -1) p.sampling) {arm : ℕ}
    (harm : arm < p.sampling.length) (hno : ¬p.Overflows value) :
    Lies (p.gain arm value) 0 (2 ^ (k - 54)) := by
  obtain ⟨hs, hs', hk, hk', hgain, -⟩ := id hscale
  obtain ⟨n, hn, hn0, hn1⟩ := h.lies_normalize hno
  obtain ⟨c, hc, hcs⟩ := h.exists_holds_chance hscale hsampling harm
  have hcpos : 0 < c := (zpow_pos two_pos _).trans_le hcs
  have hcast : (1 : ℚ) ≤ arms := by exact_mod_cast h.arms_pos
  have hcount : Holds (Float.ofNat p.arms) arms :=
    h.arms_eq ▸ holds_ofNat (h.arms_eq ▸ h.arms_le.trans (by norm_num))
  have hedge : Edge (2 ^ (k - 54)) := edge_zpow (by omega) (by omega)
  obtain ⟨e, he, he0, hes⟩ := (hn.div hc hcpos.ne').lies edge_zero
    (edge_zpow (k := s) (by omega) (by omega)) (div_nonneg hn0 hcpos.le) (by
      rw [div_le_iff₀ hcpos]
      calc n ≤ 2 ^ s * 2 ^ (-s) := by rwa [← zpow_add₀ two_ne_zero, add_neg_cancel, zpow_zero]
        _ ≤ 2 ^ s * c := by gcongr)
  obtain ⟨m, hm, hm0, hmk⟩ := (h.gamma.mul he).lies edge_zero hedge
    (mul_nonneg h.gamma_pos.le he0) (by
      calc g * e ≤ g * 2 ^ s := by gcongr; exact h.gamma_pos.le
        _ ≤ 2 ^ (k - 54) := hgain)
  exact (hm.div hcount (by positivity)).lies edge_zero hedge (div_nonneg hm0 (by positivity))
    ((div_le_self hm0 hcast).trans hmk)

end Built

/-! ## One turn -/

/-- Another state of the same strategy. -/
structure Alike (p q : Exponential Float Random.Gen) : Prop where
  gamma : q.gamma = p.gamma
  low : q.low = p.low
  high : q.high = p.high
  arms : q.arms = p.arms

/-- Log-weights within their scale, and distributions by which an arm can be drawn. -/
structure Kept (k : ℤ) (p : Exponential Float Random.Gen) : Prop where
  logs : ∀ w ∈ p.logWeights, Lies w 0 (2 ^ k)
  probabilities : Spread (2 ^ (-35 : ℤ)) 0 (k ≤ -1) p.probabilities
  sampling : Spread (2 ^ (-35 : ℤ)) 0 (k ≤ -1) p.sampling
  length_probabilities : p.probabilities.length = p.arms
  length_sampling : p.sampling.length = p.arms

/-- Numbers throughout, and an arm is drawn by its probability. -/
structure Intact (p : Exponential Float Random.Gen) : Prop where
  logs : ∀ w ∈ p.logWeights, w.isFinite = true
  probabilities : ∀ x ∈ p.probabilities, Lies x 0 1
  drawn : ∀ source : Random.Gen, ∃ d, Random.drawWeighted p.probabilities source = .ok d

/-- A log-weight is undefined and so is every probability, and all arms are drawn alike. -/
structure Degenerate (p : Exponential Float Random.Gen) : Prop where
  logs : ∃ w ∈ p.logWeights, w.isNaN = true
  probabilities : ∀ x ∈ p.probabilities, x.isNaN = true
  drawn : ∀ source : Random.Gen,
    Random.drawWeighted p.probabilities source = .error .notComparable

/-- A telling reward for an arm that overflows. -/
def Spoils (p : Exponential Float Random.Gen) (a : ActionId) (r : Reward Float) : Prop :=
  a.toNat < p.arms ∧ r.neutral = false ∧ p.Overflows r.value

theorem mem_modify {β : Type} {x : β} {f : β → β} {i : ℕ} {xs : List β}
    (h : x ∈ xs.modify i f) : x ∈ xs ∨ ∃ y ∈ xs, x = f y := by
  obtain ⟨j, hj⟩ := List.mem_iff_getElem?.mp h
  rw [List.getElem?_modify] at hj
  obtain ⟨y, hy, rfl⟩ := Option.map_eq_some_iff.mp hj
  have hmem := List.mem_of_getElem? hy
  split
  · exact .inr ⟨y, hmem, rfl⟩
  · exact .inl hmem

/-- A turn that feeds a reward counts it at most, or is one of a telling reward for an arm. -/
theorem feed_cases (exp : Float → Float) (p : Exponential Float Random.Gen) (a : ActionId)
    (r : Reward Float) :
    (∃ updates, (runsBy exp).feed p (a, r) = { p with updates }) ∨
      a.toNat < p.arms ∧ r.neutral = false ∧
        (runsBy exp).feed p (a, r) = fedBy exp p a.toNat r := by
  by_cases harm : a.toNat < p.arms
  · have hfed : (runsBy exp).feed p (a, r) = fedBy exp p a.toNat r := lawful_runsBy.feed_of_lt harm
    cases hr : r.neutral with
    | true =>
        refine .inl ⟨p.updates + 1, hfed.trans ?_⟩
        unfold fedBy fed
        rw [hr]
        rfl
    | false => exact .inr ⟨harm, rfl, hfed⟩
  · exact .inl ⟨p.updates, lawful_runsBy.feed_of_le (Nat.le_of_not_lt harm)⟩

theorem eq_of_select {p p' : Exponential Float Random.Gen} {a : ActionId}
    (h : p.select = some (a, p')) :
    ∃ source, p' = { p with sampling := p.probabilities, source } := by
  obtain ⟨drawn, -, heq⟩ := Option.map_eq_some_iff.mp h
  cases heq
  exact ⟨_, rfl⟩

section

variable {p q q' : Exponential Float Random.Gen} {arms : ℕ} {g a b : ℚ} {s k : ℤ}

theorem Alike.refl (p : Exponential Float Random.Gen) : Alike p p := ⟨rfl, rfl, rfl, rfl⟩

theorem Alike.feed (h : Alike p q) (action : ActionId) (r : Reward Float) :
    Alike p ((runsBy exp).feed q (action, r)) := by
  obtain ⟨updates, heq⟩ | ⟨-, hr, heq⟩ := feed_cases exp q action r
  · rw [heq]
    exact ⟨h.gamma, h.low, h.high, h.arms⟩
  · rw [heq, fedBy_eq _ _ hr]
    exact ⟨h.gamma, h.low, h.high, (List.length_modify ..).trans h.arms⟩

theorem Alike.select (h : Alike p q) {action : ActionId} (hselect : q.select = some (action, q')) :
    Alike p q' := by
  obtain ⟨source, rfl⟩ := eq_of_select hselect
  exact ⟨h.gamma, h.low, h.high, h.arms⟩

theorem Alike.built (h : Alike p q) (hp : p.Built arms g a b) : q.Built arms g a b where
  gamma := h.gamma ▸ hp.gamma
  gamma_pos := hp.gamma_pos
  gamma_le := hp.gamma_le
  low := h.low ▸ hp.low
  high := h.high ▸ hp.high
  low_lt_high := hp.low_lt_high
  arms_eq := h.arms.trans hp.arms_eq
  arms_pos := hp.arms_pos
  arms_le := hp.arms_le

/-- Where arms cannot be drawn by their probabilities they are drawn alike. -/
theorem Built.exists_select (h : p.Built arms g a b) :
    ∃ action p', p.select = some (action, p') := by
  have harms : 0 < p.arms := h.arms_eq.symm ▸ h.arms_pos
  obtain ⟨d, hd⟩ := Random.Willing.below_isSome (α := Float) p.arms p.source harms
  unfold select
  cases Random.Drawing.weighted p.probabilities p.source with
  | ok drawn => exact ⟨_, _, rfl⟩
  | error problem => exact ⟨_, _, by rw [hd]; rfl⟩

theorem Alike.spoils_iff (h : Alike p q) {action : ActionId} {r : Reward Float} :
    q.Spoils action r ↔ p.Spoils action r := by
  simp only [Spoils, Overflows, bounded, h.low, h.high, h.arms]

/-! ### Turns that keep -/

theorem Kept.intact (h : p.Kept k) (hp : p.Built arms g a b) : p.Intact where
  logs w hw := by
    obtain ⟨v, hv, -⟩ := h.logs w hw
    exact hv.finite
  probabilities x hx := by simpa using h.probabilities.lies x hx
  drawn source := by
    refine h.probabilities.exists_drawWeighted (zpow_pos two_pos _) ?_ source
    rw [h.length_probabilities, hp.arms_eq]
    exact hp.arms_le

theorem Kept.select (h : p.Kept k) {action : ActionId} (hselect : p.select = some (action, q)) :
    q.Kept k := by
  obtain ⟨source, rfl⟩ := eq_of_select hselect
  exact ⟨h.logs, h.probabilities, h.probabilities, h.length_probabilities, h.length_probabilities⟩

/-- What is added to a log-weight is lost in rounding before it leaves the scale. -/
theorem lies_add {w x : Float} (hw : Lies w 0 (2 ^ k)) (hx : Lies x 0 (2 ^ (k - 54)))
    (hlow : -900 ≤ k) (hhigh : k ≤ 900) : Lies (w + x) 0 (2 ^ k) := by
  obtain ⟨v, hv, hv0, hvk⟩ := hw
  obtain ⟨e, he, he0, hek⟩ := hx
  obtain ⟨r, hr, hholds, -⟩ := hv.add he
  have hzero : 0 ≤ r := hr.le_of_ge isDouble_zero (add_nonneg hv0 he0)
  have htop : r ≤ 2 ^ k := hr.le_zpow (by omega) (by linarith)
  have hfits : Fits r :=
    .of_between edge_zero.fits (edge_zpow (by omega) (by omega)).fits hzero htop
  exact ⟨r, hholds hfits, hzero, htop⟩

theorem Kept.feed (hexp : Exponentiates exp) (h : p.Kept k) (hp : p.Built arms g a b)
    (hscale : Scale arms g s k) {action : ActionId} {r : Reward Float}
    (hno : ¬p.Spoils action r) : ((runsBy exp).feed p (action, r)).Kept k := by
  obtain ⟨updates, heq⟩ | ⟨harm, hr, heq⟩ := feed_cases exp p action r
  · rw [heq]
    exact ⟨h.logs, h.probabilities, h.sampling, h.length_probabilities, h.length_sampling⟩
  · have hlow := hscale.le_k
    have hhigh := hscale.k_le
    have hgain := hp.lies_gain hscale h.sampling (h.length_sampling ▸ harm)
      fun hover => hno ⟨harm, hr, hover⟩
    rw [heq, fedBy_eq _ _ hr]
    generalize hws : p.logWeights.modify action.toNat (· + p.gain action.toNat r.value) = ws
    have hlogs : ∀ w ∈ ws, Lies w 0 (2 ^ k) := by
      intro w hw
      obtain hw | ⟨w', hw', rfl⟩ := mem_modify (hws ▸ hw)
      · exact h.logs w hw
      · exact lies_add (h.logs w' hw') hgain hlow hhigh
    have hlength : ws.length = p.arms := hws ▸ List.length_modify ..
    have harms : ws.length = arms := hlength.trans hp.arms_eq
    exact ⟨hlogs,
      spread_distributionBy hexp hp.gamma hp.gamma_pos hp.gamma_le
        (List.ne_nil_of_length_pos (harms ▸ hp.arms_pos)) (harms ▸ hp.arms_le) (by omega) (by omega)
        hlogs,
      h.sampling, length_distributionBy .., h.length_sampling.trans hlength.symm⟩

/-! ### Turns that spoil -/

/-- An undefined log-weight spoils the distribution that is made of it. -/
theorem degenerate_fedBy (hexp : Exponentiates exp) {arm : ℕ} {r : Reward Float}
    (hr : r.neutral = false)
    (h : ∃ w ∈ p.logWeights.modify arm (· + p.gain arm r.value), w.isNaN = true) :
    (fedBy exp p arm r).Degenerate := by
  rw [fedBy_eq _ _ hr]
  refine ⟨h, isNaN_distributionBy hexp h, drawWeighted_of_isNaN ?_ (isNaN_distributionBy hexp h)⟩
  obtain ⟨w, hw, -⟩ := h
  exact List.ne_nil_of_length_pos
    ((List.length_pos_of_mem hw).trans_eq (length_distributionBy ..).symm)

theorem Built.degenerate_of_spoils (hexp : Exponentiates exp) (h : p.Built arms g a b)
    {action : ActionId} {r : Reward Float} (hspoils : p.Spoils action r) :
    ((runsBy exp).feed p (action, r)).Degenerate := by
  obtain ⟨harm, hr, hover⟩ := hspoils
  rw [lawful_runsBy.feed_of_lt harm]
  refine degenerate_fedBy hexp hr ⟨_, List.getElem_mem (by simpa [Exponential.arms] using harm), ?_⟩
  rw [List.getElem_modify_eq]
  exact isNaN_add_of_right (h.isNaN_gain hover _)

theorem Degenerate.feed (hexp : Exponentiates exp) (h : p.Degenerate) (action : ActionId)
    (r : Reward Float) : ((runsBy exp).feed p (action, r)).Degenerate := by
  obtain ⟨updates, heq⟩ | ⟨-, hr, heq⟩ := feed_cases exp p action r
  · rw [heq]
    exact ⟨h.logs, h.probabilities, h.drawn⟩
  · rw [heq]
    obtain ⟨w, hw, hnan⟩ := h.logs
    refine degenerate_fedBy hexp hr ?_
    obtain ⟨i, hi, rfl⟩ := List.mem_iff_getElem.mp hw
    refine ⟨_, List.getElem_mem (by simpa using hi), ?_⟩
    rw [List.getElem_modify]
    split
    · exact isNaN_add_of_left hnan
    · exact hnan

theorem Degenerate.select (h : p.Degenerate) {action : ActionId}
    (hselect : p.select = some (action, q)) : q.Degenerate := by
  obtain ⟨source, rfl⟩ := eq_of_select hselect
  exact ⟨h.logs, h.probabilities, h.drawn⟩

/-! ## Runs -/

/-- A run in which such a reward is fed. -/
def Spoiled (p : Exponential Float Random.Gen) (xs : List (Turn Float)) : Prop :=
  ∃ a r, .feed a r ∈ xs ∧ p.Spoils a r

theorem Built.exists_play (h : p.Built arms g a b) (xs : List (Turn Float)) :
    ∃ drawn q, (runsBy exp).play p xs = (drawn, some q) ∧ p.Alike q := by
  refine (runsBy exp).exists_play (fun q action r _ hq => hq.feed action r) ?_ (.refl p)
  intro q hq
  obtain ⟨action, q', hselect⟩ := (hq.built h).exists_select
  exact ⟨action, q', hselect, hq.select hselect⟩

theorem Kept.play (hexp : Exponentiates exp) (h : p.Kept k) (hp : p.Built arms g a b)
    (hscale : Scale arms g s k) {xs : List (Turn Float)} (hno : ¬p.Spoiled xs)
    {drawn : List ActionId} (hplay : (runsBy exp).play p xs = (drawn, some q)) : q.Kept k := by
  have hkept : p.Alike q ∧ q.Kept k := by
    apply (runsBy exp).invariant_play ?_ ?_ ?_ hplay
    · rintro q action r hmem ⟨halike, hq⟩
      exact ⟨halike.feed action r, hq.feed hexp (halike.built hp) hscale fun hspoils =>
        hno ⟨action, r, hmem, halike.spoils_iff.mp hspoils⟩⟩
    · rintro q action q' ⟨halike, hq⟩ hselect
      exact ⟨halike.select hselect, hq.select hselect⟩
    · exact ⟨.refl p, h⟩
  exact hkept.2

theorem Built.degenerate_of_play (hexp : Exponentiates exp) (h : p.Built arms g a b)
    {xs : List (Turn Float)} (hspoiled : p.Spoiled xs) {drawn : List ActionId}
    (hplay : (runsBy exp).play p xs = (drawn, some q)) : q.Degenerate := by
  obtain ⟨action, r, hmem, hspoils⟩ := hspoiled
  obtain ⟨before, after, rfl⟩ := List.append_of_mem hmem
  obtain ⟨p', _, _, hbefore, hafter⟩ := (runsBy exp).exists_play_of_append hplay
  have halike : p.Alike p' := (runsBy exp).invariant_play (fun _ action r _ hq => hq.feed action r)
    (fun _ _ _ hq hselect => hq.select hselect) (.refl p) hbefore
  have hdegenerate : ((runsBy exp).feed p' (action, r)).Degenerate :=
    (halike.built h).degenerate_of_spoils hexp (halike.spoils_iff.mpr hspoils)
  exact (runsBy exp).invariant_play (fun _ action r _ hq => hq.feed hexp action r)
    (fun _ _ _ hq hselect => hq.select hselect) hdegenerate hafter

/-- Only bounds that are too far from each other let a reward overflow, and they let one do so. -/
theorem Built.isFinite_iff (h : p.Built arms g a b) :
    (p.high - p.low).isFinite = true ↔ ∀ xs, ¬p.Spoiled xs := by
  constructor
  · rintro hfinite xs ⟨action, r, -, -, -, hover⟩
    exact h.not_overflows hfinite r.value hover
  · intro hnone
    by_contra hinfinite
    have hzero : (ActionId.ofNat 0).toNat < p.arms := h.arms_eq.symm ▸ h.arms_pos
    have hbounded : p.bounded p.high = p.high := by
      have hdefined : Arith.isUndefined p.high = false := h.high.not_isNaN
      have hlow : Arith.lt p.high p.low = false :=
        decide_eq_false fun hlt => ((h.high.lt_iff_lt h.low).mp hlt).not_gt h.low_lt_high
      simp [bounded, Arith.clamp, hdefined, hlow]
    have hover : p.Overflows p.high := by
      rw [Overflows, hbounded]
      exact Bool.eq_false_iff.mpr hinfinite
    exact hnone [.feed (.ofNat 0) (.ofValue p.high)]
      ⟨_, _, List.mem_singleton_self _, hzero, rfl, hover⟩

end

/-! ## New strategies -/

section

variable {arms : ℕ} {gamma low high : Float} {low' high' : Option Float} {source : Random.Gen}
  {p : Exponential Float Random.Gen}

theorem exists_built (hmany : arms ≤ 2 ^ 16)
    (hcreate : create arms gamma low' high' source = .ok p) : ∃ g a b, p.Built arms g a b := by
  obtain ⟨harms, hgamma, hfinite, hbounds, rfl⟩ := create_eq_ok_iff.mp hcreate
  rw [Bool.and_eq_true] at hgamma hfinite
  have hpos : (0.0 : Float) < gamma := of_decide_eq_true hgamma.1
  have hone : gamma ≤ (1.0 : Float) := of_decide_eq_true hgamma.2
  obtain ⟨g, hg, -, hle⟩ := exists_holds_of_between holds_zero holds_one (not_isNaN_of_lt hpos).2
    (not_lt_of_lt hpos) (not_lt_of_le hone)
  have hlow : Holds (low'.getD 0) _ := ⟨hfinite.1, rfl⟩
  have hhigh : Holds (high'.getD 1) _ := ⟨hfinite.2, rfl⟩
  have hle' : ¬high'.getD 1 ≤ low'.getD 0 := of_decide_eq_false hbounds
  rw [hhigh.le_iff_le hlow, not_le] at hle'
  exact ⟨g, _, _, hg, (holds_zero.lt_iff_lt hg).mp hpos, hle, hlow, hhigh, hle',
    List.length_replicate, Nat.pos_of_ne_zero harms, hmany⟩

/-- All arms alike are in every scale. -/
theorem kept_initial (k : ℤ) (harms : 0 < arms) (hmany : arms ≤ 2 ^ 16) :
    (initial arms gamma low high source).Kept k := by
  have hne : arms ≠ 0 := harms.ne'
  obtain ⟨f, hf, -, hf1, hge⟩ := least_bounds holds_one one_pos le_rfl harms hmany
  have hmany' : (arms : ℚ) ≤ 2 ^ (35 : ℤ) := by
    exact_mod_cast hmany.trans (by norm_num)
  have hlow : 2 ^ (-35 : ℤ) ≤ f := by
    refine hge _ (isDouble_zpow (by norm_num)) ?_
    rw [le_div_iff₀ (by exact_mod_cast harms)]
    calc (2 : ℚ) ^ (-35 : ℤ) * arms ≤ 2 ^ (-35 : ℤ) * 2 ^ (35 : ℤ) := by gcongr
      _ = 1 := by norm_num
  have hlies : ∀ x ∈ List.replicate arms (One.one / Nat.cast arms : Float),
      Lies x (2 ^ (-35 : ℤ)) (2 ^ (0 : ℤ)) := by
    intro x hx
    rw [List.eq_of_mem_replicate hx]
    exact ⟨f, hf, hlow, by simpa using hf1⟩
  have huniform : Spread (2 ^ (-35 : ℤ)) 0 (k ≤ -1)
      (List.replicate arms (One.one / Nat.cast arms : Float)) := by
    refine ⟨fun x hx => ?_, ?_, fun _ => hlies⟩
    · obtain ⟨v, hv, hle, hle'⟩ := hlies x hx
      exact ⟨v, hv, (zpow_pos two_pos _).le.trans hle, hle'⟩
    · exact ⟨_, List.mem_replicate.mpr ⟨hne, rfl⟩, hlies _ (List.mem_replicate.mpr ⟨hne, rfl⟩)⟩
  refine ⟨fun w hw => ?_, huniform, huniform, ?_, ?_⟩
  · rw [List.eq_of_mem_replicate hw]
    exact ⟨0, holds_zero, le_rfl, by positivity⟩
  · simp [initial, Exponential.arms]
  · simp [initial, Exponential.arms]

/-- Options are bytes, so there are not too many arms. -/
theorem size_le {config : Config} (h : config.Gridded) :
    Catalog.size ⟨config.factors, config.powers⟩ ≤ 2 ^ 16 := by
  have hfactors := length_le_of_bytes Function.injective_id h.nodup.1
  have hpowers := length_le_of_bytes toUInt8_injective h.nodup.2
  exact (Nat.mul_le_mul hfactors hpowers).trans_eq rfl

end

/-- A configuration that passes the check builds exponential weights between its reward bounds over
any generator. In every run of them, whatever the rewards, nothing is undefined and every arm is
drawn by its probability, unless a telling reward for an arm overflows: then a log-weight and all
probabilities are undefined from then on, and all arms are drawn alike. The latter can happen if and
only if the distance of the bounds is no finite number, which the check does not ask for. -/
theorem degenerates_iff_reward_overflows (hexp : Exponentiates exp) {config : Config}
    (hcheck : config.check = .ok ()) {gamma : Float} {low high : Option Float}
    (hstrategy : config.strategy = .exponential gamma low high) (source : Random.Gen) :
    ∃ grid p, config.catalog = .ok grid ∧ config.policy grid source = .ok (.exponential p) ∧
      p.low = low.getD config.weights.range.1 ∧ p.high = high.getD config.weights.range.2 ∧
      (∀ xs, ∃ drawn q, (runsBy exp).play p xs = (drawn, some q) ∧
        (¬p.Spoiled xs → q.Intact) ∧ (p.Spoiled xs → q.Degenerate)) ∧
      ((∀ xs, ¬p.Spoiled xs) ↔ (p.high - p.low).isFinite = true) := by
  obtain ⟨-, hgridded, -, -, hadmissible⟩ := Config.check_eq_ok_iff.mp hcheck
  obtain ⟨policy, hpolicy⟩ := (Config.exists_policy_iff source hgridded).mpr hadmissible
  have hcreate := mapError_eq_ok_iff.mp hpolicy
  rw [hstrategy] at hcreate
  obtain ⟨p, hp, rfl⟩ := Policy.create_eq_ok_iff.mp hcreate
  have hmany := size_le hgridded
  obtain ⟨g, a, b, hbuilt⟩ := exists_built hmany hp
  obtain ⟨-, -, -, -, rfl⟩ := create_eq_ok_iff.mp hp
  obtain ⟨s, k, hscale⟩ := exists_scale hbuilt.arms_pos hbuilt.arms_le hbuilt.gamma_le
  refine ⟨_, _, Config.catalog_eq_ok_iff.mpr ⟨hgridded, rfl⟩, hpolicy, ?_, ?_, fun xs => ?_,
    hbuilt.isFinite_iff.symm⟩
  · cases low <;> rfl
  · cases high <;> rfl
  · obtain ⟨drawn, q, hplay, halike⟩ := hbuilt.exists_play xs
    refine ⟨drawn, q, hplay, fun hno => ?_, fun hspoiled => ?_⟩
    · have hkept := (kept_initial k hbuilt.arms_pos hmany).play hexp hbuilt hscale hno hplay
      exact hkept.intact (halike.built hbuilt)
    · exact hbuilt.degenerate_of_play hexp hspoiled hplay

section

/-- One half. -/
private theorem holds_half : Holds 0.5 (2 ^ (-1 : ℤ)) ∧ Holds (-0.5) (-2 ^ (-1 : ℤ)) := by
  have hform : form 0.5 = .finite .positive (2 ^ 52) (-53) (by norm_num) := rfl
  have hneg : form (-0.5) = .finite .negative (2 ^ 52) (-53) (by norm_num) := rfl
  refine ⟨⟨rfl, ?_⟩, rfl, ?_⟩
  · rw [hform, value, signed, two_zpow_eq (-1) 52]
    norm_num
  · rw [hneg, value, signed, two_zpow_eq (-1) 52]
    norm_num

/-- The exponential function cut to steps. It agrees with it at zero and at minus a tenth. -/
private def steps (x : Float) : Float :=
  if x.isNaN then x
  else if 0.0 ≤ x then 1.0
  else if -0.1 ≤ x then 0.9048374180359595
  else if -0.5 ≤ x then 0.6065306597126334
  else 0.0

private theorem exponentiates_steps : Exponentiates steps where
  undefined {x} h := by
    unfold steps
    rwa [if_pos h]
  share {x v} hx _ := by
    unfold steps
    rw [if_neg (Bool.eq_false_iff.mp hx.not_isNaN)]
    split_ifs
    all_goals exact exists_holds_of_between holds_zero holds_one rfl (by decide) (by decide)
  half {x v} hx hlow _ := by
    have hle : -0.5 ≤ x := (holds_half.2.le_iff_le hx).mpr hlow
    unfold steps
    rw [if_neg (Bool.eq_false_iff.mp hx.not_isNaN), if_pos hle]
    split_ifs
    all_goals exact exists_holds_of_between holds_half.1 holds_one rfl (by decide) (by decide)

/-- Bounds of half the range of doubles each, so that their distance is the whole range. -/
private def wide : Config :=
  { Config.standard with
    weights := ⟨halfRange, halfRange, 0.05⟩, strategy := .exponential 0.5 none none }

/-- Some generator. -/
private def anyGen : Random.Gen := ⟨.replicate 8 1, 0⟩

/-- The strategy that is built from them. -/
private def wideArms : Exponential Float Random.Gen :=
  .initial 30 0.5 (-halfRange) halfRange anyGen

/-- What the weights make of a delivery without any energy. -/
private def best : Reward Float := ⟨wide.weights.blend 1.0 (0.0 / 0.05), 1.0, 0.0 / 0.05, false⟩

theorem degenerates_iff_reward_overflows_standardAndWide :
    (Exponentiates steps ∧ Config.standard.check = .ok () ∧ wide.check = .ok ()) ∧
      (∃ grid p drawn q, Config.standard.catalog = .ok grid ∧
        Config.standard.policy grid anyGen = .ok (.exponential p) ∧
        (runsBy steps).play p [.draw, .feed (.ofNat 0) ⟨1.0, 1.0, 0.0, false⟩, .draw] =
          (drawn, some q) ∧ q.Intact) ∧
      ∃ grid drawn q, wide.catalog = .ok grid ∧
        wide.policy grid anyGen = .ok (.exponential wideArms) ∧
        (runsBy steps).play wideArms [.draw, .feed (.ofNat 0) best, .draw] = (drawn, some q) ∧
        q.Degenerate := by
  have hstandard : Config.standard.check = .ok () := rfl
  have hwide : wide.check = .ok () := rfl
  refine ⟨⟨exponentiates_steps, hstandard, hwide⟩, ?_, ?_⟩
  · obtain ⟨grid, p, hgrid, hp, hlow, hhigh, hruns, hfinite⟩ :=
      degenerates_iff_reward_overflows exponentiates_steps hstandard rfl anyGen
    obtain ⟨drawn, q, hplay, hintact, -⟩ :=
      hruns [.draw, .feed (.ofNat 0) ⟨1.0, 1.0, 0.0, false⟩, .draw]
    refine ⟨grid, p, drawn, q, hgrid, hp, hplay, hintact (hfinite.mpr ?_ _)⟩
    rw [hlow, hhigh]
    rfl
  · obtain ⟨grid, p, hgrid, hp, -, -, hruns, -⟩ :=
      degenerates_iff_reward_overflows exponentiates_steps hwide rfl anyGen
    have hbuilt : wide.policy grid anyGen = .ok (.exponential wideArms) := by
      cases hgrid
      rfl
    cases hp.symm.trans hbuilt
    obtain ⟨drawn, q, hplay, -, hdegenerate⟩ := hruns [.draw, .feed (.ofNat 0) best, .draw]
    refine ⟨grid, drawn, q, hgrid, hbuilt, hplay, hdegenerate ⟨.ofNat 0, best, by simp, ?_⟩⟩
    exact ⟨by decide, rfl, by unfold Overflows; decide +kernel⟩

/-- Half of the range is an accepted bound, and one reward that the weights make of telemetry is
enough to make a log-weight undefined. -/
theorem reward_of_half_the_range_degenerates :
    ∃ grid q, wide.check = .ok () ∧ wide.catalog = .ok grid ∧
      wide.policy grid anyGen = .ok (.exponential wideArms) ∧
      wide.weights.combine ⟨some 1.0, some 0.0⟩ = .ok best ∧
      moves.play wideArms [.feed (.ofNat 0) best] = ([], some q) ∧
      ∃ w ∈ q.logWeights, w.isNaN = true :=
  ⟨_, _, rfl, rfl, rfl, rfl, rfl, _, List.mem_cons_self, by decide +kernel⟩

end

end Exponential

end LinkTuner

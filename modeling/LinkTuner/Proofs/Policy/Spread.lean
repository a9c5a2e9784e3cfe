import LinkTuner.Proofs.Double.Bounds
import LinkTuner.Proofs.Policy.Play
import LinkTuner.Random.Draw

/-!
# The distribution of log-weights over doubles

Calculated with doubles, the distribution of log-weights is followed through its whole range. The
exponential function is a parameter: all that is asked of it is to stay between zero and one for
numbers that are not positive, not to be small near zero, and to leave undefined what is undefined.
Main statement: of log-weights that are numbers, in a range however wide, the probabilities are
numbers of the unit interval, not all of them small, so that an arm can be drawn by them. If one
log-weight is undefined, all probabilities are, and none can be drawn by them.
-/

namespace LinkTuner

open Double

/-- Calculating with doubles, with a given function for the exponential one. -/
@[reducible] def Arith.withExp (exp : Float → Float) : Arith Float :=
  { (inferInstance : Arith Float) with exp }

/-- What is asked of an exponential function of doubles, between zero and one. -/
structure Exponentiates (exp : Float → Float) : Prop where
  undefined {x : Float} : x.isNaN = true → (exp x).isNaN = true
  share {x : Float} {v : ℚ} : Holds x v → v ≤ 0 → Lies (exp x) 0 1
  half {x : Float} {v : ℚ} : Holds x v → -2 ^ (-1 : ℤ) ≤ v → v ≤ 0 → Lies (exp x) (2 ^ (-1 : ℤ)) 1

namespace Exponential

variable {exp : Float → Float}

/-- The runs of the strategy with a given exponential function. -/
def runsBy (exp : Float → Float) : Moves Float (Exponential Float Random.Gen) :=
  @moves Float Random.Gen (.withExp exp) inferInstance

/-- With the exponential function of doubles these are the runs of the strategy itself. -/
theorem runsBy_exp : runsBy Float.exp = moves := rfl

/-- The strategy after a reward for one of its arms. -/
def fedBy (exp : Float → Float) (p : Exponential Float Random.Gen) (arm : Nat)
    (r : Reward Float) : Exponential Float Random.Gen :=
  @fed Float Random.Gen (.withExp exp) p arm r

theorem lawful_runsBy : (runsBy exp).Lawful (fedBy exp) :=
  @lawful Float Random.Gen (.withExp exp) inferInstance

/-- The weights relative to the greatest one. -/
def relative (exp : Float → Float) (ws : List Float) : List Float :=
  ws.map fun w => exp (w - Arith.greatest ws)

/-- The share of an arm with a relative weight, before all are made to sum to one. -/
def part (gamma : Float) (arms : Nat) (total x : Float) : Float :=
  (1.0 - gamma) * x / total + gamma / Float.ofNat arms

/-- The shares of all arms. -/
def parts (exp : Float → Float) (gamma : Float) (ws : List Float) : List Float :=
  (relative exp ws).map (part gamma ws.length (Arith.sum (relative exp ws)))

/-- The distribution of log-weights. -/
def distributionBy (exp : Float → Float) (gamma : Float) (ws : List Float) : List Float :=
  (parts exp gamma ws).map (· / Arith.sum (parts exp gamma ws))

theorem length_relative (exp : Float → Float) (ws : List Float) :
    (relative exp ws).length = ws.length := List.length_map ..

theorem length_parts (exp : Float → Float) (gamma : Float) (ws : List Float) :
    (parts exp gamma ws).length = ws.length := by
  rw [parts, List.length_map, length_relative]

theorem length_distributionBy (exp : Float → Float) (gamma : Float) (ws : List Float) :
    (distributionBy exp gamma ws).length = ws.length := by
  rw [distributionBy, List.length_map, length_parts]

theorem fedBy_eq (p : Exponential Float Random.Gen) (arm : Nat) {r : Reward Float}
    (hr : r.neutral = false) :
    fedBy exp p arm r =
      { p with
        logWeights := p.logWeights.modify arm (· + p.gain arm r.value)
        probabilities :=
          distributionBy exp p.gamma (p.logWeights.modify arm (· + p.gain arm r.value))
        updates := p.updates + 1 } := by
  unfold fedBy fed
  rw [hr]
  rfl

/-! ## Spread numbers -/

/-- Numbers from zero up to a power of two, of which one is not small; if they are close, none is. -/
structure Spread (low : ℚ) (j : ℤ) (close : Prop) (xs : List Float) : Prop where
  lies : ∀ x ∈ xs, Lies x 0 (2 ^ j)
  exists_lies : ∃ x ∈ xs, Lies x low (2 ^ j)
  all : close → ∀ x ∈ xs, Lies x low (2 ^ j)

namespace Spread

variable {low low' : ℚ} {j j' : ℤ} {close : Prop} {xs : List Float}

theorem ne_nil (h : Spread low j close xs) : xs ≠ [] := by
  obtain ⟨x, hx, -⟩ := h.exists_lies
  exact List.ne_nil_of_mem hx

theorem map {f : Float → Float} (h : Spread low j close xs)
    (hf : ∀ x ∈ xs, Lies x 0 (2 ^ j) → Lies (f x) 0 (2 ^ j'))
    (hlow : ∀ x ∈ xs, Lies x low (2 ^ j) → Lies (f x) low' (2 ^ j')) :
    Spread low' j' close (xs.map f) := by
  refine ⟨?_, ?_, fun hclose => ?_⟩
  · exact List.forall_mem_map.mpr fun x hx => hf x hx (h.lies x hx)
  · obtain ⟨x, hx, hlies⟩ := h.exists_lies
    exact ⟨f x, List.mem_map_of_mem hx, hlow x hx hlies⟩
  · exact List.forall_mem_map.mpr fun x hx => hlow x hx (h.all hclose x hx)

/-- The sum is at least each of the numbers, and so not small. -/
theorem exists_holds_sum (h : Spread low j close xs) (hlow : -1074 ≤ j) (hhigh : j ≤ 970)
    (hmany : xs.length ≤ 2 ^ 16) :
    ∃ t, Holds (Arith.sum xs) t ∧ low ≤ t ∧ t ≤ 2 ^ (16 + j) ∧
      ∀ x ∈ xs, ∀ v, Holds x v → v ≤ t := by
  obtain ⟨t, ht, hmax, hle⟩ :=
    Double.exists_holds_sum h.ne_nil hlow hhigh (hmany.trans (by norm_num)) h.lies
  obtain ⟨x, hx, v, hv, hge, -⟩ := h.exists_lies
  have hmany' : (xs.length : ℚ) ≤ 2 ^ (16 : ℤ) := by exact_mod_cast hmany
  refine ⟨t, ht, hge.trans (hle x hx v hv), hmax.trans ?_, hle⟩
  rw [zpow_add₀ two_ne_zero]
  gcongr

end Spread

/-! ## The distribution -/

section

variable {gamma total x : Float} {g T v : ℚ} {arms : ℕ} {k : ℤ} {ws : List Float}

/-- The least probability is a share, and as great as every double that the exact one exceeds. -/
theorem least_bounds (hg : Holds gamma g) (hpos : 0 < g) (hone : g ≤ 1) (harms : 0 < arms)
    (hmany : arms ≤ 2 ^ 16) :
    ∃ f, Holds (gamma / Float.ofNat arms) f ∧ 0 ≤ f ∧ f ≤ 1 ∧
      ∀ c, IsDouble c → c ≤ g / arms → c ≤ f := by
  have hcast : (1 : ℚ) ≤ arms := by exact_mod_cast harms
  have hcount : Holds (Float.ofNat arms) arms := holds_ofNat (hmany.trans (by norm_num))
  refine (hg.div hcount (by positivity)).exists_between edge_zero edge_one (by positivity) ?_
  exact (div_le_one (by positivity)).mpr (hone.trans hcast)

/-- The share of an arm, before all are made to sum to one. Half of the greatest weight is enough
for a share that is not small: it comes from the weight or from the uniform part. -/
theorem part_bounds (hg : Holds gamma g) (hpos : 0 < g) (hone : g ≤ 1) (harms : 0 < arms)
    (hmany : arms ≤ 2 ^ 16) (hT : Holds total T) (hhalf : 2 ^ (-1 : ℤ) ≤ T)
    (hlarge : T ≤ 2 ^ (16 : ℤ)) (hx : Holds x v) (hzero : 0 ≤ v) (hvT : v ≤ T) :
    ∃ z, Holds (part gamma arms total x) z ∧ 0 ≤ z ∧ z ≤ 2 ^ (1 : ℤ) ∧
      (2 ^ (-1 : ℤ) ≤ v → 2 ^ (-18 : ℤ) ≤ z) := by
  have hTpos : 0 < T := (zpow_pos two_pos _).trans_le hhalf
  obtain ⟨c, hc, hc0, hc1, hcge⟩ := (holds_one.sub hg).exists_between edge_zero edge_one
    (sub_nonneg.mpr hone) (by linarith)
  obtain ⟨n, hn, hn0, hnv, hnge⟩ := (hc.mul hx).exists_between edge_zero hx.edge
    (mul_nonneg hc0 hzero) (mul_le_of_le_one_left hzero hc1)
  obtain ⟨q, hq, hq0, hq1, hqge⟩ := (hn.div hT hTpos.ne').exists_between edge_zero edge_one
    (div_nonneg hn0 hTpos.le) ((div_le_one hTpos).mpr (hnv.trans hvT))
  obtain ⟨f, hf, hf0, hf1, hfge⟩ := least_bounds hg hpos hone harms hmany
  obtain ⟨z, hz, hz0, hz2, hzge⟩ := (hq.add hf).exists_between edge_zero
    (edge_zpow (k := 1) (by norm_num) (by norm_num)) (add_nonneg hq0 hf0)
    (by rw [zpow_one]; linarith)
  refine ⟨z, hz, hz0, hz2, fun hweight => hzge _ (isDouble_zpow (by norm_num)) ?_⟩
  rcases le_total g (2 ^ (-1 : ℤ)) with hsmall | hgreat
  · have hc : 2 ^ (-1 : ℤ) ≤ c := by
      refine hcge _ (isDouble_zpow (by norm_num)) ?_
      norm_num at hsmall ⊢
      linarith
    have hn : 2 ^ (-2 : ℤ) ≤ n := by
      refine hnge _ (isDouble_zpow (by norm_num)) ?_
      calc (2 : ℚ) ^ (-2 : ℤ) = 2 ^ (-1 : ℤ) * 2 ^ (-1 : ℤ) := by norm_num
        _ ≤ c * v := mul_le_mul hc hweight (by positivity) hc0
    have hq : 2 ^ (-18 : ℤ) ≤ q := by
      refine hqge _ (isDouble_zpow (by norm_num)) ((le_div_iff₀ hTpos).mpr ?_)
      calc (2 : ℚ) ^ (-18 : ℤ) * T ≤ 2 ^ (-18 : ℤ) * 2 ^ (16 : ℤ) := by gcongr
        _ = 2 ^ (-2 : ℤ) := by norm_num
        _ ≤ n := hn
    linarith
  · have hcast : (0 : ℚ) < arms := by exact_mod_cast harms
    have hmany' : (arms : ℚ) ≤ 2 ^ 16 := by exact_mod_cast hmany
    have hf : 2 ^ (-18 : ℤ) ≤ f := by
      refine hfge _ (isDouble_zpow (by norm_num)) ((le_div_iff₀ hcast).mpr ?_)
      calc (2 : ℚ) ^ (-18 : ℤ) * arms ≤ 2 ^ (-18 : ℤ) * 2 ^ 16 := by gcongr
        _ ≤ 2 ^ (-1 : ℤ) := by norm_num
        _ ≤ g := hgreat
    linarith

/-- Relative weights are shares, and that of the greatest weight is not small. None is if the
log-weights are close to each other. -/
theorem spread_relative (hexp : Exponentiates exp) (hne : ws ≠ []) (hlow : -1074 ≤ k)
    (hhigh : k ≤ 970) (h : ∀ w ∈ ws, Lies w 0 (2 ^ k)) :
    Spread (2 ^ (-1 : ℤ)) 0 (k ≤ -1) (relative exp ws) := by
  have htop := Arith.greatest_mem hne
  obtain ⟨t, ht, hle⟩ := exists_holds_greatest hne fun w hw => (h w hw).imp fun _ hv => hv.1
  have hbelow : ∀ w ∈ ws, Lies (w - Arith.greatest ws) (-2 ^ k) 0 := by
    intro w hw
    obtain ⟨v, hv, hzero, -⟩ := h w hw
    obtain ⟨t', ht', -, hbound⟩ := h _ htop
    have hbound : t ≤ 2 ^ k := by rwa [ht.unique ht']
    exact (hv.sub ht).lies (edge_zpow hlow hhigh).neg edge_zero (by linarith)
      (sub_nonpos.mpr (hle w hw v hv))
  refine ⟨List.forall_mem_map.mpr fun w hw => ?_, ⟨_, List.mem_map_of_mem htop, ?_⟩,
    fun hk => List.forall_mem_map.mpr fun w hw => ?_⟩
  · obtain ⟨v, hv, -, hnonpos⟩ := hbelow w hw
    simpa using hexp.share hv hnonpos
  · -- The greatest weight is compared with itself.
    have hself := ht.sub ht
    rw [sub_self] at hself
    have hzero := hself.holds_of_isDouble isDouble_zero edge_zero.fits
    simpa using hexp.half hzero (by norm_num) le_rfl
  · obtain ⟨v, hv, hclose, hnonpos⟩ := hbelow w hw
    have hk' : (2 : ℚ) ^ k ≤ 2 ^ (-1 : ℤ) := zpow_le_zpow_right₀ one_le_two hk
    simpa using hexp.half hv (by linarith) hnonpos

theorem spread_parts (hexp : Exponentiates exp) (hg : Holds gamma g) (hpos : 0 < g) (hone : g ≤ 1)
    (hne : ws ≠ []) (hmany : ws.length ≤ 2 ^ 16) (hlow : -1074 ≤ k) (hhigh : k ≤ 970)
    (h : ∀ w ∈ ws, Lies w 0 (2 ^ k)) :
    Spread (2 ^ (-18 : ℤ)) 1 (k ≤ -1) (parts exp gamma ws) := by
  have hrelative := spread_relative hexp hne hlow hhigh h
  obtain ⟨T, hT, hhalf, hlarge, hle⟩ := hrelative.exists_holds_sum (by norm_num) (by norm_num)
    (by rwa [length_relative])
  have hbounds {x : Float} (hx : x ∈ relative exp ws) {v : ℚ} (hv : Holds x v) (hzero : 0 ≤ v) :=
    part_bounds hg hpos hone (List.length_pos_iff.mpr hne) hmany hT hhalf hlarge hv hzero
      (hle x hx v hv)
  apply hrelative.map
  · rintro x hx ⟨v, hv, hzero, -⟩
    obtain ⟨z, hz, hz0, hz2, -⟩ := hbounds hx hv hzero
    exact ⟨z, hz, hz0, hz2⟩
  · rintro x hx ⟨v, hv, hweight, -⟩
    have hzero : 0 ≤ v := (zpow_pos two_pos _).le.trans hweight
    obtain ⟨z, hz, -, hz2, hlarge⟩ := hbounds hx hv hzero
    exact ⟨z, hz, hlarge hweight, hz2⟩

theorem spread_distributionBy (hexp : Exponentiates exp) (hg : Holds gamma g) (hpos : 0 < g)
    (hone : g ≤ 1) (hne : ws ≠ []) (hmany : ws.length ≤ 2 ^ 16) (hlow : -1074 ≤ k) (hhigh : k ≤ 970)
    (h : ∀ w ∈ ws, Lies w 0 (2 ^ k)) :
    Spread (2 ^ (-35 : ℤ)) 0 (k ≤ -1) (distributionBy exp gamma ws) := by
  have hparts := spread_parts hexp hg hpos hone hne hmany hlow hhigh h
  obtain ⟨S, hS, hlowS, hlargeS, hle⟩ := hparts.exists_holds_sum (by norm_num) (by norm_num)
    (by rwa [length_parts])
  have hSpos : 0 < S := (zpow_pos two_pos _).trans_le hlowS
  apply hparts.map
  · rintro x hx ⟨z, hz, hzero, -⟩
    simpa using (hz.div hS hSpos.ne').lies edge_zero edge_one (div_nonneg hzero hSpos.le)
      ((div_le_one hSpos).mpr (hle x hx z hz))
  · rintro x hx ⟨z, hz, hlow', -⟩
    have hge : 2 ^ (-35 : ℤ) ≤ z / S := by
      rw [le_div_iff₀ hSpos]
      calc (2 : ℚ) ^ (-35 : ℤ) * S ≤ 2 ^ (-35 : ℤ) * 2 ^ (16 + 1 : ℤ) := by gcongr
        _ = 2 ^ (-18 : ℤ) := by norm_num
        _ ≤ z := hlow'
    rw [zpow_zero]
    exact (hz.div hS hSpos.ne').lies (edge_zpow (by norm_num) (by norm_num)) edge_one hge
      ((div_le_one hSpos).mpr (hle x hx z hz))

end

section

variable {gamma : Float} {ws xs : List Float}

/-- One undefined log-weight makes every probability undefined. -/
theorem isNaN_distributionBy (hexp : Exponentiates exp) (h : ∃ w ∈ ws, w.isNaN = true) :
    ∀ x ∈ distributionBy exp gamma ws, x.isNaN = true := by
  obtain ⟨w, hw, hnan⟩ := h
  have htotal : (Arith.sum (relative exp ws)).isNaN = true :=
    isNaN_sum ⟨_, List.mem_map_of_mem hw, hexp.undefined (isNaN_sub_of_left hnan)⟩
  intro x hx
  obtain ⟨y, hy, rfl⟩ := List.mem_map.mp hx
  obtain ⟨z, -, rfl⟩ := List.mem_map.mp hy
  exact isNaN_div_of_left (isNaN_add_of_left (isNaN_div_of_right htotal))

/-! ## Drawing by it -/

theorem snd_runningSums (total : Float) (ws : List Float) :
    (Random.runningSums total ws).2 = ws.foldl (· + ·) total := by
  induction ws generalizing total with
  | nil => rfl
  | cons w ws ih => exact ih (total + w)

/-- Numbers that are not negative and not all small can be drawn by. -/
theorem Spread.exists_drawWeighted {low : ℚ} {close : Prop} (h : Spread low 0 close xs)
    (hlow : 0 < low) (hmany : xs.length ≤ 2 ^ 16) (source : Random.Gen) :
    ∃ d, Random.drawWeighted xs source = .ok d := by
  obtain ⟨t, ht, hle, -⟩ := h.exists_holds_sum (by norm_num) (by norm_num) hmany
  have hweights : xs.all Random.isWeight = true := by
    rw [List.all_eq_true]
    intro x hx
    obtain ⟨v, hv, hzero, -⟩ := h.lies x hx
    exact decide_eq_true ((holds_zero.le_iff_le hv).mpr hzero)
  obtain ⟨first, rest, rfl⟩ := List.exists_cons_of_ne_nil h.ne_nil
  have htotal : ((Random.runningSums first rest).2 == 0.0) = false := by
    rw [snd_runningSums]
    exact ht.beq_zero (hlow.trans_le hle).ne'
  exact ⟨_, by simp only [Random.drawWeighted, hweights, htotal, Bool.not_true, Bool.false_eq_true,
    if_false]; rfl⟩

theorem drawWeighted_of_isNaN (hne : xs ≠ []) (h : ∀ x ∈ xs, x.isNaN = true) (source : Random.Gen) :
    Random.drawWeighted xs source = .error .notComparable := by
  obtain ⟨first, rest, rfl⟩ := List.exists_cons_of_ne_nil hne
  have hfirst : Random.isWeight first = false := by
    apply decide_eq_false
    intro hle
    have hdefined := (not_isNaN_of_le hle).2
    rw [h first List.mem_cons_self] at hdefined
    cases hdefined
  simp [Random.drawWeighted, hfirst]

end

end Exponential

end LinkTuner

import LinkTuner.Proofs.Policy.Distribution

/-!
# How likely a rewarded arm was

A reward is divided by how likely its arm was. The rule asks for the distribution from which that
arm was last drawn; kept is the one of the latest draw, whichever arm that drew. The two agree as
long as the arm's own draw is the latest one. Calculated exactly, a reward that counts for something
is weighed by the rule if and only if both distributions give its arm the same probability.
-/

namespace LinkTuner.Exponential

open Arith

section

variable {α γ : Type} [Arith α] [Random.Drawing α γ]

/-- The draws of a run, each with the probabilities it was made with. -/
def draws (p : Exponential α γ) : List (Turn α) → List (ActionId × List α)
  | [] => []
  | .feed action reward :: rest => draws (moves.feed p (action, reward)) rest
  | .draw :: rest =>
    match p.select with
    | none => []
    | some (action, p') => (action, p.probabilities) :: draws p' rest

/-- The distribution of the latest of some draws. -/
def latest (ds : List (ActionId × List α)) : Option (List α) := ds.getLast?.map Prod.snd

/-- The distribution from which an arm was last drawn. -/
def lastFor (a : ActionId) (ds : List (ActionId × List α)) : Option (List α) :=
  latest (ds.filter (·.1 == a))

/-- How likely an arm counts as under a distribution: no less than the least probability. -/
def likelihood (p : Exponential α γ) (distribution : List α) (arm : Nat) : α :=
  greater (distribution.getD arm 0) p.floor

/-- The log-weights after a reward that is divided by how likely its arm was under a
distribution. -/
def raisedUnder (p : Exponential α γ) (distribution : List α) (arm : Nat) (value : α) : List α :=
  p.logWeights.modify arm
    (· + p.gamma * (p.normalize value / p.likelihood distribution arm) / (p.arms : α))

theorem map_fst_draws (p : Exponential α γ) (xs : List (Turn α)) :
    (draws p xs).map Prod.fst = (moves.play p xs).1 := by
  induction xs generalizing p with
  | nil => rfl
  | cons turn rest ih =>
      cases turn with
      | feed a r => exact ih _
      | draw =>
          simp only [draws, Moves.play, moves]
          cases p.select with
          | none => rfl
          | some drawn => exact congrArg (drawn.1 :: ·) (ih drawn.2)

theorem draws_of_select {p p' : Exponential α γ} {a : ActionId} (h : p.select = some (a, p'))
    (rest : List (Turn α)) : draws p (.draw :: rest) = (a, p.probabilities) :: draws p' rest := by
  simp only [draws, h]

@[simp] theorem sampling_feed (p : Exponential α γ) (u : ActionId × Reward α) :
    (moves.feed p u).sampling = p.sampling := by
  by_cases h : u.1.toNat < p.arms
  · rw [lawful.feed_of_lt h, fed]
    split <;> rfl
  · rw [lawful.feed_of_le (Nat.le_of_not_lt h)]

omit [Arith α] in
theorem sampling_of_select {p p' : Exponential α γ} {a : ActionId}
    (h : p.select = some (a, p')) : p'.sampling = p.probabilities := by
  obtain ⟨drawn, -, heq⟩ := Option.map_eq_some_iff.mp h
  cases heq
  rfl

omit [Arith α] [Random.Drawing α γ] in
theorem latest_cons (d : ActionId × List α) (ds : List (ActionId × List α)) :
    latest (d :: ds) = some ((latest ds).getD d.2) := by
  simp [latest, List.getLast?_cons]

omit [Arith α] [Random.Drawing α γ] in
theorem lastFor_of_getLast? {a : ActionId} {ds : List (ActionId × List α)} {own : List α}
    (h : ds.getLast? = some (a, own)) : lastFor a ds = some own := by
  obtain ⟨earlier, rfl⟩ := List.getLast?_eq_some_iff.mp h
  simp [lastFor, latest]

/-- What is kept for the rewards to come is the distribution of the latest draw. -/
theorem sampling_of_play {p q : Exponential α γ} {xs : List (Turn α)} {drawn : List ActionId}
    (h : moves.play p xs = (drawn, some q)) :
    q.sampling = (latest (draws p xs)).getD p.sampling := by
  induction xs generalizing p drawn with
  | nil =>
      cases h
      rfl
  | cons turn rest ih =>
      cases turn with
      | feed a r => exact (ih h).trans (by rw [sampling_feed]; rfl)
      | draw =>
          obtain ⟨a, p', later, hselect, hrest, -⟩ := moves.exists_select_of_play h
          rw [ih hrest, sampling_of_select hselect, draws_of_select hselect, latest_cons]
          rfl

/-- A telling reward raises the log-weight of its arm under the distribution of the latest draw. -/
theorem logWeights_fed_of_play {p q : Exponential α γ} {xs : List (Turn α)}
    {drawn : List ActionId} (hplay : moves.play p xs = (drawn, some q)) {distribution : List α}
    (hlatest : latest (draws p xs) = some distribution) (arm : Nat) {r : Reward α}
    (htelling : r.neutral = false) :
    (q.fed arm r).logWeights = q.raisedUnder distribution arm r.value := by
  have hsampling : q.sampling = distribution := by simp [sampling_of_play hplay, hlatest]
  simp only [fed, htelling, raisedUnder, gain, estimate, chance, likelihood, hsampling]
  rfl

/-- Every telling reward is divided by how likely its arm was when an arm was last drawn, whichever
arm that was. This is what the rule asks for where the arm itself was drawn last, or is as likely as
when it was. -/
theorem reward_divided_by_latest_likelihood {p q : Exponential α γ} {xs : List (Turn α)}
    {drawn : List ActionId} (hplay : moves.play p xs = (drawn, some q)) {a : ActionId}
    (harm : a.toNat < q.arms) {r : Reward α} (htelling : r.neutral = false) {own : List α}
    (hown : lastFor a (draws p xs) = some own) :
    ∃ last distribution, drawn.getLast? = some last ∧
      latest (draws p xs) = some distribution ∧
      ∃ q', q.update a r = .ok q' ∧
        q'.logWeights = q.raisedUnder distribution a.toNat r.value ∧
        (last = a → distribution = own) ∧
        (distribution.getD a.toNat 0 = own.getD a.toNat 0 →
          q'.logWeights = q.raisedUnder own a.toNat r.value) := by
  have hne : draws p xs ≠ [] := by
    intro hnil
    simp [lastFor, latest, hnil] at hown
  obtain ⟨d, hd⟩ : ∃ d, (draws p xs).getLast? = some d := ⟨_, List.getLast?_eq_some_getLast hne⟩
  have hlatest : latest (draws p xs) = some d.2 := by simp [latest, hd]
  have hraised := logWeights_fed_of_play hplay hlatest a.toNat htelling
  refine ⟨d.1, d.2, ?_, hlatest, q.fed a.toNat r, update_of_lt harm r, hraised, ?_, ?_⟩
  · have hdrawn : drawn = (draws p xs).map Prod.fst := by rw [map_fst_draws, hplay]
    simp [hdrawn, hd]
  · rintro rfl
    exact Option.some.inj ((lastFor_of_getLast? hd).symm.trans hown)
  · intro heq
    rw [hraised]
    simp only [raisedUnder, likelihood, heq]

section

/-- Two equally likely arms, drawn in turn. -/
private noncomputable def halves : Exponential ℝ InTurn := initial 2 (1 / 2) 0 1 ⟨0⟩

/-- The first arm is rewarded and the other one is drawn after it. -/
private noncomputable def overtaken : List (Turn ℝ) :=
  [.draw, .feed (.ofNat 0) (.ofValue 1), .draw]

theorem reward_divided_by_latest_likelihood_overtaken :
    ∃ q, (moves.play halves overtaken = ([0, 1].map .ofNat, some q) ∧
        (ActionId.ofNat 0).toNat < q.arms ∧ (Reward.ofValue (1 : ℝ)).neutral = false ∧
        lastFor (.ofNat 0) (draws halves overtaken) = some halves.probabilities) ∧
      ∃ distribution, latest (draws halves overtaken) = some distribution ∧
        ∃ q', q.update (.ofNat 0) (.ofValue 1) = .ok q' ∧
          q'.logWeights = q.raisedUnder distribution 0 1 := by
  obtain ⟨q, hplay, harm⟩ : ∃ q, moves.play halves overtaken = ([0, 1].map .ofNat, some q) ∧
      (ActionId.ofNat 0).toNat < q.arms := ⟨_, rfl, by decide⟩
  have hown : lastFor (.ofNat 0) (draws halves overtaken) = some halves.probabilities := rfl
  obtain ⟨_, distribution, -, hlatest, q', hupdate, hraised, -⟩ :=
    reward_divided_by_latest_likelihood hplay harm rfl hown (r := .ofValue 1)
  exact ⟨q, ⟨hplay, harm, rfl, hown⟩, distribution, hlatest, q', hupdate, hraised⟩

end

end

/-! ## Without rounding -/

section

variable {K γ : Type} [ExactNumbers K] [Random.Drawing K γ] {arms : Nat} {gamma : K}

/-- Every draw is made with probabilities that some log-weights stand for. -/
theorem Faithful.exists_mixed_of_mem_draws {p : Exponential K γ} (h : p.Faithful arms gamma)
    (harms : 0 < arms) {xs : List (Turn K)} {d : ActionId × List K} (hd : d ∈ draws p xs) :
    ∃ ws, ws.length = arms ∧ d.2 = mixed gamma ws := by
  induction xs generalizing p with
  | nil => cases hd
  | cons turn rest ih =>
      cases turn with
      | feed a r => exact ih (h.feed harms (a, r)) hd
      | draw =>
          cases hselect : p.select with
          | none => simp [draws, hselect] at hd
          | some drawn =>
              rw [draws_of_select hselect] at hd
              rcases List.mem_cons.mp hd with rfl | hd
              · exact ⟨p.logWeights, h.length_logWeights, h.probabilities_eq⟩
              · exact ih (h.select hselect) hd

omit [Random.Drawing K γ] in
/-- Short of undercutting the least probability an arm is as likely as the distribution says. -/
theorem Faithful.likelihood_mixed {q : Exponential K γ} (h : q.Faithful arms gamma)
    (hpos : 0 < gamma) (hone : gamma ≤ 1) {ws : List K} (hlength : ws.length = arms) {arm : Nat}
    (harm : arm < arms) :
    q.likelihood (mixed gamma ws) arm = (mixed gamma ws).getD arm 0 ∧
      0 < (mixed gamma ws).getD arm 0 := by
  have hlt : arm < ws.length := hlength.symm ▸ harm
  have hne : ws ≠ [] := List.ne_nil_of_length_pos (Nat.zero_lt_of_lt hlt)
  have hfloor : q.floor = gamma / ws.length := by rw [floor, h.gamma_eq, h.arms_eq, hlength]
  have hle : gamma / ws.length ≤ (mixed gamma ws).getD arm 0 := by
    simp only [mixed_eq_map_portion, List.getD_eq_getElem?_getD, List.getElem?_map,
      List.getElem?_eq_getElem hlt, Option.map_some, Option.getD_some]
    exact le_portion hone hne _
  refine ⟨?_, (div_pos hpos (length_cast_pos hne)).trans_le hle⟩
  rw [likelihood, hfloor, greater_eq_max, max_eq_left hle]

omit [Random.Drawing K γ] in
/-- Log-weights raised under two distributions are the same if nothing is added, or if both make the
arm as likely. -/
theorem raisedUnder_eq_iff {q : Exponential K γ} (hgamma : q.gamma ≠ 0) {ds es : List K} {arm : Nat}
    (harm : arm < q.arms) (hds : q.likelihood ds arm ≠ 0) (hes : q.likelihood es arm ≠ 0)
    (value : K) :
    q.raisedUnder ds arm value = q.raisedUnder es arm value ↔
      q.normalize value = 0 ∨ q.likelihood ds arm = q.likelihood es arm := by
  constructor
  · intro h
    have harms : (q.arms : K) ≠ 0 := by exact_mod_cast (Nat.zero_lt_of_lt harm).ne'
    have hlt : arm < q.logWeights.length := harm
    have hget := congrArg (·[arm]?) h
    simp only [raisedUnder, List.getElem?_modify_eq, List.getElem?_eq_getElem hlt,
      Option.map_eq_map, Option.map_some, Option.some.injEq, add_right_inj, div_left_inj' harms,
      mul_right_inj' hgamma] at hget
    rw [div_eq_div_iff hds hes] at hget
    rcases eq_or_ne (q.normalize value) 0 with hzero | hzero
    · exact Or.inl hzero
    · exact Or.inr (mul_left_cancel₀ hzero hget).symm
  · rintro (h | h)
    · simp only [raisedUnder, h, zero_div]
    · simp only [raisedUnder, h]

/-- A telling reward is weighed by the rule if and only if it is the least there is, or its arm is
as likely under the latest distribution as under the one it was last drawn from. -/
theorem Faithful.raisedUnder_latest_eq_iff {p q : Exponential K γ} (h : p.Faithful arms gamma)
    (hpos : 0 < gamma) (hone : gamma ≤ 1) {xs : List (Turn K)} {drawn : List ActionId}
    (hplay : moves.play p xs = (drawn, some q)) {a : ActionId} (harm : a.toNat < arms)
    {distribution own : List K} (hlatest : latest (draws p xs) = some distribution)
    (hown : lastFor a (draws p xs) = some own) (value : K) :
    q.raisedUnder distribution a.toNat value = q.raisedUnder own a.toNat value ↔
      q.normalize value = 0 ∨ distribution.getD a.toNat 0 = own.getD a.toNat 0 := by
  have harms : 0 < arms := Nat.zero_lt_of_lt harm
  have hq : q.Faithful arms gamma := h.play harms hplay
  obtain ⟨d, hd, rfl⟩ := Option.map_eq_some_iff.mp hlatest
  obtain ⟨e, he, rfl⟩ := Option.map_eq_some_iff.mp hown
  obtain ⟨ws, hws, hd⟩ := h.exists_mixed_of_mem_draws harms (List.mem_of_getLast? hd)
  obtain ⟨vs, hvs, he⟩ := h.exists_mixed_of_mem_draws harms
    (List.mem_of_mem_filter (List.mem_of_getLast? he))
  obtain ⟨hlikely, hlikelyPos⟩ := hq.likelihood_mixed hpos hone hws harm
  obtain ⟨hown, hownPos⟩ := hq.likelihood_mixed hpos hone hvs harm
  rw [hd, he, raisedUnder_eq_iff (hq.gamma_eq.symm ▸ hpos.ne') (hq.arms_eq.symm ▸ harm)
    (by rw [hlikely]; exact hlikelyPos.ne') (by rw [hown]; exact hownPos.ne'), hlikely, hown]

/-- What the first reward adds. -/
private theorem logWeights_fed_halves : (halves.fed 0 (.ofValue 1)).logWeights = [1 / 2, 0] := by
  have hgain : halves.gain 0 1 = 1 / 2 := by
    simp [gain, halves, initial, estimate, normalize, bounded, clamp, Arith.lt, chance,
      greater_eq_max, floor, Exponential.arms]
    norm_num
  have hzeros : halves.logWeights = [0, 0] := rfl
  simp [fed, Reward.ofValue, hgain, hzeros]

/-- The rule is broken where another arm is drawn after a reward: the next reward of the first arm
is divided by what its earlier reward made of its probability, not by that of its draw. -/
theorem overtaken_draw_weighed_otherwise :
    ∃ q q', moves.play halves overtaken = ([0, 1].map .ofNat, some q) ∧
      lastFor (.ofNat 0) (draws halves overtaken) = some halves.probabilities ∧
      q.update (.ofNat 0) (.ofValue 1) = .ok q' ∧
      q'.logWeights ≠ q.raisedUnder halves.probabilities 0 1 := by
  have hhalves : halves.Faithful 2 (1 / 2) := faithful_initial (by decide) _ _ _ _
  -- The other arm is drawn with the probabilities that the reward of the first one leaves.
  have hrewarded : (halves.fed 0 (.ofValue 1)).Faithful 2 (1 / 2) := hhalves.fed (by decide) 0 _
  obtain ⟨q, hplay, harm, hnormalize⟩ :
      ∃ q, moves.play halves overtaken = ([0, 1].map .ofNat, some q) ∧
        (ActionId.ofNat 0).toNat < q.arms ∧ q.normalize 1 = halves.normalize 1 :=
    ⟨_, rfl, by decide, rfl⟩
  have hlatest : latest (draws halves overtaken) =
    some (halves.fed 0 (.ofValue 1)).probabilities := rfl
  have hown : lastFor (.ofNat 0) (draws halves overtaken) = some halves.probabilities := rfl
  refine ⟨q, _, hplay, hown, update_of_lt harm _, ?_⟩
  rw [logWeights_fed_of_play hplay hlatest _ rfl]
  intro heq
  have hsame := (hhalves.raisedUnder_latest_eq_iff (by norm_num) (by norm_num) hplay
    (by decide : (ActionId.ofNat 0).toNat < 2) hlatest hown 1).mp heq
  rcases hsame with hzero | hsame
  · rw [hnormalize] at hzero
    norm_num [halves, initial, normalize, bounded, clamp, Arith.lt] at hzero
  · have hsum := (hrewarded.spreadsOver (by decide) (by norm_num)).sum_probabilities
    have hle := hrewarded.le_iff (by norm_num) (by decide : 0 < 2) (by decide : 1 < 2)
    obtain ⟨x, y, hxy⟩ := List.length_eq_two.mp hrewarded.length_probabilities
    rw [logWeights_fed_halves, hxy] at hle
    rw [hxy] at hsum hsame
    have hhalf : x = 1 / (2 : Nat) := hsame
    norm_num at hle hsum hhalf
    linarith

end

end LinkTuner.Exponential

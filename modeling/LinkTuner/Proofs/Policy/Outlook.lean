import LinkTuner.Proofs.Policy.Trials

/-!
# What a snapshot says of the next draw

The probabilities of a snapshot are calculated anew from the candidates, and so is every draw. Main
statement, calculated exactly: after every run the probabilities sum to one and leave each arm its
uniform share; unless all draws are uniform, the arms that get more are those that a draw can choose
without exploring, they all get the same, and the best arm is the last of them.
-/

namespace LinkTuner

/-- A source of chance that can draw a number of the unit interval that is not below a threshold,
and after it any place below a bound. -/
def Random.Reaches {α : Type} (γ : Type) [Arith α] [Drawing α γ] (threshold : α) : Prop :=
  ∀ place bound : Nat, place < bound →
    ∃ g g' : γ, Arith.lt (Drawing.unit g : α × γ).1 threshold = false ∧
      Drawing.below α bound (Drawing.unit g : α × γ).2 = some (place, g')

namespace Greedy

open Arith

/-! ## The arms that can be chosen -/

section

variable {α γ : Type} [Arith α] [Random.Drawing α γ] {p : Greedy α γ} {arm : Nat}

omit [Arith α] [Random.Drawing α γ] in
/-- The strategy with its source of chance in another state. -/
def withSource (p : Greedy α γ) (source : γ) : Greedy α γ := { p with source }

/-- From some state of the source a draw chooses the arm without exploring. -/
def CanChoose (p : Greedy α γ) (arm : Nat) : Prop :=
  ∃ source next, (p.withSource source).explores = false ∧ (p.withSource source).Draws arm next

/-- Every candidate can be chosen, and nothing else. -/
theorem canChoose_iff (hreaches : Random.Reaches γ p.epsilon) :
    p.CanChoose arm ↔ arm ∈ p.candidates := by
  constructor
  · rintro ⟨source, next, hexplores, hdraws⟩
    have hcandidates : (p.withSource source).candidates = p.candidates := rfl
    exact hcandidates ▸ mem_candidates_of_pick hexplores hdraws.place
  · intro hmem
    obtain ⟨place, hplace⟩ := List.mem_iff_getElem?.mp hmem
    have hlt := (List.getElem?_eq_some_iff.mp hplace).1
    obtain ⟨source, next, hunit, hbelow⟩ : ∃ source next : γ,
        lt (Random.Drawing.unit source : α × γ).1 p.epsilon = false ∧
          Random.Drawing.below α p.candidates.length (Random.Drawing.unit source : α × γ).2 =
            some (place, next) := hreaches place _ hlt
    have hexplores : (p.withSource source).explores = false := hunit
    have hcandidates : (p.withSource source).candidates = p.candidates := rfl
    refine ⟨source, next, hexplores, draws_of_pick ?_⟩
    rw [pick_of_not_explores hexplores, hcandidates, withSource, hbelow]
    simp [hplace]

end

/-! ## The probabilities -/

section

variable {K γ : Type} [ExactNumbers K] {p : Greedy K γ} {arm : Nat} {x : K}

/-- What each arm gets of the draws that explore. -/
def uniformShare (p : Greedy K γ) : K := p.epsilon / p.arms

/-- What each candidate gets of the draws that do not. -/
def candidateShare (p : Greedy K γ) : K := (1 - p.epsilon) / p.candidates.length

theorem probabilities_eq (p : Greedy K γ) :
    p.snapshot.probabilities = (List.range p.arms).map fun arm =>
      p.uniformShare + if arm ∈ p.candidates then p.candidateShare else 0 := by
  refine List.map_congr_left fun arm _ => ?_
  by_cases h : arm ∈ p.candidates <;> simp [h, uniformShare, candidateShare]

theorem length_probabilities (p : Greedy K γ) : p.snapshot.probabilities.length = p.arms := by
  simp [probabilities_eq]

theorem probability_of_mem (h : arm ∈ p.candidates) :
    p.snapshot.probabilities[arm]? = some (p.uniformShare + p.candidateShare) := by
  simp [probabilities_eq, lt_of_mem_candidates h, h]

theorem probability_of_not_mem (harm : arm < p.arms) (h : arm ∉ p.candidates) :
    p.snapshot.probabilities[arm]? = some p.uniformShare := by
  simp [probabilities_eq, harm, h]

/-- The candidates are counted by going through all arms. -/
theorem filter_mem_candidates_perm (p : Greedy K γ) :
    ((List.range p.arms).filter (· ∈ p.candidates)).Perm p.candidates := by
  refine (List.perm_ext_iff_of_nodup (List.nodup_range.filter _) (nodup_candidates p)).mpr ?_
  intro arm
  simpa using fun h => lt_of_mem_candidates h

theorem candidates_length_pos (harms : 0 < p.arms) : (0 : K) < p.candidates.length :=
  Nat.cast_pos.mpr (List.length_pos_iff.mpr (candidates_ne_nil harms))

theorem sum_probabilities (harms : 0 < p.arms) : p.snapshot.probabilities.sum = 1 := by
  have harms' : (p.arms : K) ≠ 0 := Nat.cast_ne_zero.mpr harms.ne'
  have hcandidates := (candidates_length_pos harms).ne'
  calc p.snapshot.probabilities.sum
      = p.arms * p.uniformShare + p.candidates.length * p.candidateShare := by
        rw [probabilities_eq, List.sum_map_add, List.sum_map_ite]
        simp [(filter_mem_candidates_perm p).length_eq]
    _ = 1 := by
        unfold uniformShare candidateShare
        field_simp
        ring

theorem candidateShare_nonneg (hone : p.epsilon ≤ 1) : 0 ≤ p.candidateShare :=
  div_nonneg (sub_nonneg.mpr hone) (Nat.cast_nonneg _)

theorem candidateShare_pos (harms : 0 < p.arms) (hone : p.epsilon < 1) : 0 < p.candidateShare :=
  div_pos (sub_pos.mpr hone) (candidates_length_pos harms)

theorem uniformShare_le (hone : p.epsilon ≤ 1) (hx : x ∈ p.snapshot.probabilities) :
    p.uniformShare ≤ x := by
  rw [probabilities_eq] at hx
  obtain ⟨arm, -, rfl⟩ := List.mem_map.mp hx
  have hshare := candidateShare_nonneg hone
  split <;> simp [hshare]

theorem uniformShare_lt_iff (harms : 0 < p.arms) (hone : p.epsilon < 1)
    (hx : p.snapshot.probabilities[arm]? = some x) :
    p.uniformShare < x ↔ arm ∈ p.candidates := by
  have harm : arm < p.arms := length_probabilities p ▸ (List.getElem?_eq_some_iff.mp hx).1
  by_cases h : arm ∈ p.candidates
  · cases hx.symm.trans (probability_of_mem h)
    simp [h, candidateShare_pos harms hone]
  · cases hx.symm.trans (probability_of_not_mem harm h)
    simp [h]

/-- The best arm is the last of the candidates. -/
theorem exists_best (harms : 0 < p.arms) (hone : p.epsilon < 1) :
    ∃ arm ∈ p.candidates, p.snapshot.best = some (.ofNat arm) ∧
      ∀ other ∈ p.candidates, other ≤ arm := by
  have hne : p.snapshot.probabilities ≠ [] := by
    rw [← List.length_pos_iff, length_probabilities]
    exact harms
  obtain ⟨arm, x, hfound, hgreatest⟩ := exists_lastGreatest hne
  have hmem : arm ∈ p.candidates := by
    obtain ⟨other, hother⟩ := List.exists_mem_of_ne_nil _ (candidates_ne_nil harms)
    have hle := totalLe_iff.mp
      (hgreatest.le_of_mem _ (List.mem_of_getElem? (probability_of_mem hother)))
    have hlt := lt_add_of_pos_right p.uniformShare (candidateShare_pos harms hone)
    exact (uniformShare_lt_iff harms hone hgreatest.get).mp (hlt.trans_le hle)
  refine ⟨arm, hmem, by simp [Snapshot.best, hfound], fun other hother => ?_⟩
  by_contra hlater
  -- A later candidate would have the same probability.
  have hbelow := hgreatest.below other _ (not_le.mp hlater) (probability_of_mem hother)
  cases hgreatest.get.symm.trans (probability_of_mem hmem)
  rw [totalLe_iff.mpr le_rfl] at hbelow
  cases hbelow

/-! ## Runs -/

/-- The probabilities of the snapshot describe the next draw. -/
structure Describes [Random.Drawing K γ] (arms : Nat) (epsilon : K) (p : Greedy K γ) : Prop where
  length_probabilities : p.snapshot.probabilities.length = arms
  sum_probabilities : p.snapshot.probabilities.sum = 1
  share_le : ∀ x ∈ p.snapshot.probabilities, epsilon / (arms : K) ≤ x
  /-- Short of drawing uniformly, the arms that get more are those that can be chosen. -/
  share_lt_iff : epsilon < 1 → ∀ arm x, p.snapshot.probabilities[arm]? = some x →
    (epsilon / (arms : K) < x ↔ p.CanChoose arm)
  alike : epsilon < 1 → ∀ arm other, p.CanChoose arm → p.CanChoose other →
    p.snapshot.probabilities[arm]? = p.snapshot.probabilities[other]?
  best : epsilon < 1 → ∃ arm < arms, p.CanChoose arm ∧ p.snapshot.best = some (.ofNat arm) ∧
    ∀ other, p.CanChoose other → other ≤ arm

/-- Calculated exactly, after every run the snapshot is a distribution that describes what the next
draw can choose. Unless all draws explore, the source has to have a number for one that does not. -/
theorem snapshot_describes_draws [Random.Drawing K γ] {arms : Nat} {epsilon : K}
    {step : Option K} {weights : Weights K} {source : γ} {q : Greedy K γ}
    (hreaches : epsilon < 1 → Random.Reaches γ epsilon)
    (hcreate : create arms epsilon step weights source = .ok p) {xs : List (Turn K)}
    {drawn : List ActionId} (hplay : moves.play p xs = (drawn, some q)) :
    q.Describes arms epsilon := by
  obtain ⟨harms, hepsilon, -, rfl⟩ := create_eq_ok_iff.mp hcreate
  have hone : epsilon ≤ 1 := by
    simp only [Bool.and_eq_true, le_iff] at hepsilon
    exact hepsilon.2
  have hepsilon' : q.epsilon = epsilon := epsilon_play hplay
  have harms' : q.arms = arms := (lawful.arms_play hplay).trans (arms_initial ..)
  have hpos : 0 < q.arms := harms' ▸ Nat.pos_of_ne_zero harms
  have hshare : q.uniformShare = epsilon / arms := by rw [uniformShare, harms', hepsilon']
  have hcan (hlt : epsilon < 1) (arm : Nat) : q.CanChoose arm ↔ arm ∈ q.candidates :=
    canChoose_iff (hepsilon' ▸ hreaches hlt)
  refine ⟨?_, sum_probabilities hpos, ?_, ?_, ?_, ?_⟩
  · rw [length_probabilities, harms']
  · exact fun x hx => hshare ▸ uniformShare_le (hepsilon' ▸ hone) hx
  · intro hlt arm x hx
    rw [hcan hlt, ← hshare]
    exact uniformShare_lt_iff hpos (hepsilon' ▸ hlt) hx
  · intro hlt arm other harm hother
    rw [probability_of_mem ((hcan hlt arm).mp harm),
      probability_of_mem ((hcan hlt other).mp hother)]
  · intro hlt
    obtain ⟨arm, hmem, hbest, hle⟩ := exists_best hpos (hepsilon' ▸ hlt)
    exact ⟨arm, harms' ▸ lt_of_mem_candidates hmem, (hcan hlt arm).mpr hmem, hbest,
      fun other hother => hle other ((hcan hlt other).mp hother)⟩

end

section

/-- A source that knows only two numbers of the unit interval, and goes on with the same one and the
same place every time. -/
structure Coin where
  upper : Bool
  place : Nat

noncomputable instance : Random.Drawing ℝ Coin where
  unit g := (if g.upper then 1 / 3 else 0, g)
  below bound g := if bound = 0 then none else some (g.place % bound, g)
  weighted ws g := if ws.isEmpty then .error .noItem else .ok (g.place % ws.length, g)

/-- The greater number is enough for thresholds up to one third. -/
theorem reaches_coin {threshold : ℝ} (h : threshold ≤ 1 / 3) :
    Random.Reaches Coin threshold := by
  intro place bound hplace
  refine ⟨⟨true, place⟩, ⟨true, place⟩, ?_, ?_⟩
  · simpa [Random.Drawing.unit, Bool.eq_false_iff] using h
  · simp [Random.Drawing.unit, Random.Drawing.below, Nat.ne_zero_of_lt hplace,
      Nat.mod_eq_of_lt hplace]

/-- Three arms, one of which is tried. -/
private noncomputable def triedOnce : List (Turn ℝ) := [.feed (.ofNat 1) ⟨1, 1, 0, false⟩]

theorem snapshot_describes_draws_triedOnce :
    Random.Reaches Coin (1 / 4 : ℝ) ∧
      ∃ p, create 3 (1 / 4 : ℝ) none ⟨1, 1 / 2, 1⟩ (Coin.mk false 0) = .ok p ∧
        ∃ q, moves.play p triedOnce = ([], some q) ∧ q.Describes 3 (1 / 4) := by
  have hreaches : Random.Reaches Coin (1 / 4 : ℝ) := reaches_coin (by norm_num)
  have hcreate : create 3 (1 / 4 : ℝ) none ⟨1, 1 / 2, 1⟩ (Coin.mk false 0) =
      .ok (initial 3 (1 / 4) none ⟨1, 1 / 2, 1⟩ ⟨false, 0⟩) :=
    create_eq_ok_iff.mpr ⟨by decide, by norm_num, by simp, rfl⟩
  obtain ⟨q, hplay⟩ : ∃ q, moves.play
      (initial 3 (1 / 4 : ℝ) none ⟨1, 1 / 2, 1⟩ (Coin.mk false 0)) triedOnce = ([], some q) :=
    ⟨_, rfl⟩
  exact ⟨hreaches, _, hcreate, q, hplay,
    snapshot_describes_draws (fun _ => hreaches) hcreate hplay⟩

end

end Greedy

end LinkTuner

import LinkTuner.Proofs.Policy.Estimates
import LinkTuner.Proofs.Policy.Means
import Mathlib.Data.List.Perm.Subperm

/-!
# Every arm is tried before the best is chosen

An arm counts as tried once a reward for it told something. As long as no draw explores, draws go to
arms that were not tried; so if every arm that is drawn is tried before the next draw, and no other
one is, the first draws go through all arms. Only then do values matter: what is drawn from there on
is an arm whose value no other exceeds.
-/

namespace LinkTuner

/-- Whether a turn draws an arm. -/
def Turn.isDraw {α : Type} : Turn α → Bool
  | .draw => true
  | .feed .. => false

/-- The number of draws of a run. -/
def draws {α : Type} (xs : List (Turn α)) : Nat := xs.countP Turn.isDraw

namespace Greedy

open Arith

variable {α γ : Type} [Arith α] {arms arm : Nat} {epsilon : α} {step : Option α}
  {weights : Weights α} {source : γ} {xs : List (Turn α)} {drawn : List ActionId}

/-! ## What was tried -/

theorem count_learnAll (e : ArmEstimate α) (rs : List (Reward α)) :
    (learnAll step e rs).count = e.count + rs.length := by
  induction rs using List.reverseRecOn with
  | nil => rfl
  | append_singleton rs r ih => simp [learnAll_concat, learn, ih, Nat.add_assoc]

omit [Arith α] in
/-- A reward names its arm by the number of an action. -/
theorem toNat_ofNat_of_telling (h : telling arm xs ≠ []) : (ActionId.ofNat arm).toNat = arm := by
  obtain ⟨r, hr⟩ := List.exists_mem_of_ne_nil _ h
  obtain ⟨turn, -, hturn⟩ := List.mem_filterMap.mp hr
  cases turn with
  | draw => cases hturn
  | feed a r =>
      obtain ⟨⟨rfl, -⟩, -⟩ := Option.ite_none_right_eq_some.mp hturn
      rw [ActionId.ofNat_toNat]

variable [Random.Drawing α γ] {p q : Greedy α γ}

theorem epsilon_play (h : moves.play p xs = (drawn, some q)) : q.epsilon = p.epsilon := by
  have hfeed (q : Greedy α γ) (a : ActionId) (r : Reward α) (_ : .feed a r ∈ xs)
      (hq : q.epsilon = p.epsilon) : (moves.feed q (a, r)).epsilon = p.epsilon :=
    (parameters_feed q (a, r)).1.trans hq
  refine moves.invariant_play hfeed (fun q _ _ hq hselect => ?_) rfl h
  obtain ⟨source, rfl⟩ := exists_source_of_select hselect
  exact hq

/-- After a run the arms that were not tried are those that no reward told anything about. -/
theorem mem_untried_of_play
    (h : moves.play (initial arms epsilon step weights source) xs = (drawn, some q)) :
    arm ∈ q.untried ↔ arm < arms ∧ telling arm xs = [] := by
  rw [untried, mem_places_iff, estimates_play_initial h]
  by_cases harm : arm < arms
  · simp [harm, count_learnAll]
  · simp [harm]

/-! ## Runs that try what they draw -/

/-- No draw of the run explores, and at each draw the arms that were tried are those that were
drawn. -/
def Attentive (p : Greedy α γ) (xs : List (Turn α)) : Prop :=
  ∀ before after drawn q, xs = before ++ .draw :: after →
    moves.play p before = (drawn, some q) →
    q.explores = false ∧ ∀ arm < q.arms, (telling arm before ≠ [] ↔ .ofNat arm ∈ drawn)

theorem Attentive.of_append {ys : List (Turn α)} (h : p.Attentive (xs ++ ys)) :
    p.Attentive xs := by
  rintro before after drawn q rfl hplay
  exact h before (after ++ ys) drawn q (by simp) hplay

variable {order : List Nat}

omit [Arith α] in
/-- Two places that stand for one action are not both tried. -/
theorem telling_ne_nil_iff_mem (hlt : ∀ arm ∈ order, arm < arms)
    (htried : ∀ arm < arms, (telling arm xs ≠ [] ↔ .ofNat arm ∈ order.map ActionId.ofNat))
    (harm : arm < arms) : telling arm xs ≠ [] ↔ arm ∈ order := by
  constructor
  · intro htold
    obtain ⟨place, hplace, heq⟩ := List.mem_map.mp ((htried arm harm).mp htold)
    have htold' := (htried place (hlt place hplace)).mpr (List.mem_map_of_mem hplace)
    have hsame := congrArg ActionId.toNat heq
    rw [toNat_ofNat_of_telling htold, toNat_ofNat_of_telling htold'] at hsame
    exact hsame ▸ hplace
  · intro hmem
    exact (htried arm harm).mpr (List.mem_map_of_mem hmem)

variable [Random.Bounded α γ] [Random.Willing α γ]

/-- A draw that does not explore chooses an arm that was not tried as long as there is one. -/
theorem exists_draws_untried
    (hplay : moves.play (initial arms epsilon step weights source) xs = (drawn, some q))
    (h : q.explores = false) (hnew : ∃ other < arms, telling other xs = []) :
    ∃ arm next, q.Draws arm next ∧ arm < arms ∧ telling arm xs = [] := by
  obtain ⟨other, hother⟩ := hnew
  have hne : q.untried ≠ [] := List.ne_nil_of_mem ((mem_untried_of_play hplay).mpr hother)
  have hcandidates := candidates_of_untried hne
  obtain ⟨arm, next, hdraws, hmem⟩ := exists_draws h (hcandidates ▸ hne)
  exact ⟨arm, next, hdraws, (mem_untried_of_play hplay).mp (hcandidates ▸ hmem)⟩

/-- While there are fewer draws than arms, the next one chooses an arm that was not drawn. -/
theorem exists_draws_fresh
    (hplay : moves.play (initial arms epsilon step weights source) xs =
      (order.map .ofNat, some q))
    (hlt : ∀ arm ∈ order, arm < arms) (hlength : order.length < arms) (h : q.explores = false)
    (htried : ∀ arm < arms, (telling arm xs ≠ [] ↔ .ofNat arm ∈ order.map ActionId.ofNat)) :
    ∃ arm next, q.Draws arm next ∧ arm < arms ∧ arm ∉ order := by
  have hmem {arm : Nat} (harm : arm < arms) := telling_ne_nil_iff_mem hlt htried harm
  have hnew : ∃ other < arms, telling other xs = [] := by
    by_contra hall
    have hsubset : List.range arms ⊆ order := by
      intro arm harm
      rw [List.mem_range] at harm
      exact (hmem harm).mp fun hnil => hall ⟨arm, harm, hnil⟩
    have hle := (List.nodup_range.subperm hsubset).length_le
    rw [List.length_range] at hle
    omega
  obtain ⟨arm, next, hdraws, harm, hnil⟩ := exists_draws_untried hplay h hnew
  exact ⟨arm, next, hdraws, harm, fun hdrawn => (hmem harm).mpr hdrawn hnil⟩

/-- As long as there are not more draws than arms, no arm is drawn twice. -/
theorem exists_play_of_attentive
    (hattentive : (initial arms epsilon step weights source).Attentive xs)
    (hdraws : draws xs ≤ arms) :
    ∃ (order : List Nat) (q : Greedy α γ),
      moves.play (initial arms epsilon step weights source) xs = (order.map .ofNat, some q) ∧
      order.Nodup ∧ (∀ arm ∈ order, arm < arms) ∧ order.length = draws xs := by
  induction xs using List.reverseRecOn with
  | nil => exact ⟨[], _, rfl, List.nodup_nil, by simp, rfl⟩
  | append_singleton xs turn ih =>
      have hcount : draws (xs ++ [turn]) = draws xs + draws [turn] := List.countP_append
      obtain ⟨order, q, hplay, hnodup, hlt, hlength⟩ := ih hattentive.of_append (by omega)
      have hnext := moves.play_append hplay [turn]
      cases turn with
      | feed a r =>
          refine ⟨order, moves.feed q (a, r), ?_, hnodup, hlt, hlength.trans hcount.symm⟩
          simpa [Moves.play] using hnext
      | draw =>
          replace hcount : draws (xs ++ [.draw]) = draws xs + 1 := hcount
          have harms : q.arms = arms := (lawful.arms_play hplay).trans (arms_initial ..)
          obtain ⟨hexplores, htried⟩ := hattentive xs [] _ q rfl hplay
          obtain ⟨arm, next, hdrawn, harm, hnot⟩ :=
            exists_draws_fresh hplay hlt (by omega) hexplores (harms ▸ htried)
          have hselect : moves.select q = some (.ofNat arm, { q with source := next }) :=
            hdrawn.action
          refine ⟨order ++ [arm], { q with source := next }, ?_, ?_, ?_, by simp [hlength, hcount]⟩
          · simpa [Moves.play, hselect] using hnext
          · exact hnodup.append (List.nodup_singleton arm) (by simpa using hnot)
          · simpa [or_imp, forall_and] using ⟨hlt, harm⟩

variable [Ordered α]

/-- What a draw that does not explore chooses after a run: an arm that was not tried, or if all
were, one whose value no other exceeds. -/
structure Chooses (arms : Nat) (xs : List (Turn α)) (q : Greedy α γ) : Prop where
  untried : (∃ other < arms, telling other xs = []) →
    ∃ arm next, q.Draws arm next ∧ arm < arms ∧ telling arm xs = []
  /-- One value has to be a number. -/
  best : (∀ other < arms, telling other xs ≠ []) → (∃ v ∈ q.values, isUndefined v = false) →
    ∃ arm next best, q.Draws arm next ∧ q.values[arm]? = some best ∧
      ∀ v ∈ q.values, isUndefined v = false → le v best = true

theorem chooses_of_play
    (hplay : moves.play (initial arms epsilon step weights source) xs = (drawn, some q))
    (h : q.explores = false) : q.Chooses arms xs where
  untried := exists_draws_untried hplay h
  best htried hdefined := by
    obtain ⟨v, hv, hdefined⟩ := hdefined
    have hnil : q.untried = [] := by
      rw [List.eq_nil_iff_forall_not_mem]
      intro arm hmem
      obtain ⟨harm, htold⟩ := (mem_untried_of_play hplay).mp hmem
      exact htried arm harm htold
    have hleading := candidates_of_tried hnil
    have hne : q.leading ≠ [] := by
      rw [Ne, leading_eq_nil_iff]
      intro hundefined
      rw [hundefined v hv] at hdefined
      cases hdefined
    obtain ⟨arm, next, hdraws, hmem⟩ := exists_draws h (hleading ▸ hne)
    obtain ⟨best, hbest, hle⟩ := le_of_mem_leading (hleading ▸ hmem)
    exact ⟨arm, next, best, hdraws, hbest, hle⟩

/-- In a run of a new strategy in which no draw explores and each arm that is drawn is tried before
the next draw, and no other one is, the first draws go through all arms, whatever follows them.
After any run a draw that does not explore chooses an arm that was not tried, or if all were, one
whose value no other exceeds. -/
theorem tries_every_arm_before_the_best
    (hcreate : create arms epsilon step weights source = .ok p) :
    (∀ xs rest, draws xs = arms → p.Attentive xs →
      ∃ (order : List Nat) (later : List ActionId) (last : Option (Greedy α γ)),
        moves.play p (xs ++ rest) = (order.map .ofNat ++ later, last) ∧
          order.Perm (List.range arms)) ∧
    ∀ xs drawn q, moves.play p xs = (drawn, some q) → q.explores = false →
      q.Chooses arms xs := by
  obtain ⟨-, -, -, rfl⟩ := create_eq_ok_iff.mp hcreate
  refine ⟨fun xs rest hdraws hattentive => ?_, fun xs drawn q => chooses_of_play⟩
  obtain ⟨order, q, hplay, hnodup, hlt, hlength⟩ := exists_play_of_attentive hattentive hdraws.le
  have hsubperm := hnodup.subperm fun arm harm => List.mem_range.mpr (hlt arm harm)
  refine ⟨order, _, _, moves.play_append hplay rest, hsubperm.perm_of_length_le ?_⟩
  rw [List.length_range, hlength, hdraws]

section

/-- A policy of two arms that never explores. -/
private def steadyPair : Greedy Float Random.Gen := .initial 2 0.0 none .standard (.ofSeed 7)

/-- A reward that tells something. -/
private def delivered : Reward Float := ⟨1.0, 1.0, 0.0, false⟩

private theorem explores_steadyPair {xs : List (Turn Float)} {drawn : List ActionId}
    {q : Greedy Float Random.Gen} (h : moves.play steadyPair xs = (drawn, some q)) :
    q.explores = false := by
  unfold explores
  rw [epsilon_play h]
  exact decide_eq_false (Random.not_drawUnit_lt_zero _)

/-- The arm that is drawn first is tried before the next draw. -/
private theorem attentive_steadyPair {arm : Nat} {next : Random.Gen}
    (hdraws : steadyPair.Draws arm next) :
    steadyPair.Attentive [.draw, .feed (.ofNat arm) delivered, .draw] := by
  intro before after drawn q hsplit hplay
  have harms : q.arms = 2 := lawful.arms_play hplay
  have hselect : moves.select steadyPair = some (.ofNat arm, { steadyPair with source := next }) :=
    hdraws.action
  refine ⟨explores_steadyPair hplay, fun other hother => ?_⟩
  rw [harms] at hother
  rcases before with _ | ⟨first, _ | ⟨second, _ | ⟨third, before⟩⟩⟩
  · cases hplay
    simp [telling]
  · simp at hsplit
  · simp only [List.cons_append, List.nil_append, List.cons.injEq] at hsplit
    obtain ⟨rfl, rfl, -⟩ := hsplit
    simp only [Moves.play, hselect] at hplay
    obtain ⟨rfl, -⟩ := Prod.mk.inj hplay
    rw [List.mem_singleton, ActionId.ofNat_eq_iff (Nat.lt_trans hother (by decide))]
    by_cases h : (ActionId.ofNat arm).toNat = other <;> simp [telling, tellingOf, delivered, h]
  · simp at hsplit

/-- Each arm is tried by a reward of its own. -/
private def bothTold : List (Turn Float) :=
  [.feed (.ofNat 0) delivered, .feed (.ofNat 1) delivered]

theorem tries_every_arm_before_the_best_steadyPair :
    create 2 (0.0 : Float) none .standard (Random.Gen.ofSeed 7) = .ok steadyPair ∧
    (∃ arm, draws [.draw, .feed (.ofNat arm) delivered, .draw] = 2 ∧
      steadyPair.Attentive [.draw, .feed (.ofNat arm) delivered, .draw] ∧
      ∃ (order : List Nat) (later : List ActionId) (last : Option (Greedy Float Random.Gen)),
        moves.play steadyPair ([.draw, .feed (.ofNat arm) delivered, .draw] ++ [.draw]) =
          (order.map .ofNat ++ later, last) ∧ order.Perm [0, 1]) ∧
    (steadyPair.explores = false ∧
      ∃ arm next, steadyPair.Draws arm next ∧ arm < 2 ∧ telling arm ([] : List (Turn Float)) = []) ∧
    ∃ q, moves.play steadyPair bothTold = ([], some q) ∧ q.explores = false ∧
      (∀ other < 2, telling other bothTold ≠ []) ∧ (∃ v ∈ q.values, isUndefined v = false) ∧
      ∃ arm next best, q.Draws arm next ∧ q.values[arm]? = some best ∧
        ∀ v ∈ q.values, isUndefined v = false → le v best = true := by
  have hcreate : create 2 (0.0 : Float) none .standard (Random.Gen.ofSeed 7) = .ok steadyPair := rfl
  have hnothing : moves.play steadyPair [] = ([], some steadyPair) := rfl
  have hexplores := explores_steadyPair hnothing
  obtain ⟨hfirst, hchooses⟩ := tries_every_arm_before_the_best hcreate
  have huntried := (hchooses [] [] _ hnothing hexplores).untried ⟨0, by decide, rfl⟩
  refine ⟨hcreate, ?_, ⟨hexplores, huntried⟩, ?_⟩
  · obtain ⟨arm, next, hdraws, -⟩ := huntried
    have hattentive := attentive_steadyPair hdraws
    exact ⟨arm, rfl, hattentive, hfirst _ [.draw] rfl hattentive⟩
  · have hplay : moves.play steadyPair bothTold =
        ([], some ((steadyPair.fed 0 delivered).fed 1 delivered)) := rfl
    have hexplores := explores_steadyPair hplay
    have htold : ∀ other < 2, telling other bothTold ≠ [] := by
      intro other hother
      interval_cases other <;> exact List.cons_ne_nil _ _
    have hdefined : ∃ v ∈ ((steadyPair.fed 0 delivered).fed 1 delivered).values,
        isUndefined v = false := by decide +kernel
    exact ⟨_, hplay, hexplores, htold, hdefined,
      (hchooses bothTold [] _ hplay hexplores).best htold hdefined⟩

end

end Greedy

end LinkTuner

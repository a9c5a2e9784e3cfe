import LinkTuner.Controller.Owner
import LinkTuner.Proofs.Policy.Creation
import LinkTuner.Proofs.Policy.Play

/-!
# Draws within the arms

A whole number is drawn below its bound and an index below the number of its weights, whatever the
words of the generator and the weights are. So a strategy draws arms only: the exponential one as it
keeps one probability for each arm, the other as its candidates are places of the list of estimates.
-/

namespace LinkTuner

namespace Random

/-! ## The draws themselves -/

theorem belowFrom_lt {bound : Nat} (hbound : 0 < bound) (zone turns : Nat) (g : Gen) :
    (belowFrom bound zone turns g).1 < bound := by
  induction turns generalizing g with
  | zero => exact hbound
  | succ turns ih =>
      simp only [belowFrom]
      split
      · apply Nat.div_lt_of_lt_mul
        exact Nat.mul_lt_mul_of_pos_right (UInt64.toNat_lt_size _) hbound
      · exact ih _

theorem drawBelow_lt {bound n : Nat} {g g' : Gen} (h : drawBelow bound g = some (n, g')) :
    n < bound := by
  unfold drawBelow at h
  split at h
  · cases h
  · next hbound =>
      have hlt := belowFrom_lt (Nat.pos_of_ne_zero hbound)
        (bound * Decimal.twoTo (63 - bound.log2) - 1) maxTurns g
      rwa [Option.some.inj h] at hlt

theorem length_runningSums (total : Float) (ws : List Float) :
    (runningSums total ws).1.length = ws.length := by
  induction ws generalizing total with
  | nil => rfl
  | cons w ws ih => exact congrArg (· + 1) (ih _)

/-- An index is the number of running sums of all weights but one that some number reaches. -/
theorem drawWeighted_lt {ws : List Float} {i : Nat} {g g' : Gen}
    (h : drawWeighted ws g = .ok (i, g')) : i < ws.length := by
  cases ws with
  | nil => cases h
  | cons first rest =>
      simp only [drawWeighted] at h
      split at h
      · cases h
      · split at h
        · cases h
        · cases h
          have hle := (List.takeWhile_sublist (· ≤ (drawScaled (runningSums first rest).2 g).1)
            (l := (runningSums first rest).1)).length_le
          rw [length_runningSums] at hle
          exact Nat.lt_succ_of_le hle

/-- A source of chance that keeps to the bounds it is given. -/
class Bounded (α γ : Type) [Drawing α γ] : Prop where
  below_lt {bound n : Nat} {g g' : γ} : Drawing.below α bound g = some (n, g') → n < bound
  weighted_lt {ws : List α} {i : Nat} {g g' : γ} :
    Drawing.weighted ws g = .ok (i, g') → i < ws.length

instance : Bounded Float Gen := ⟨drawBelow_lt, drawWeighted_lt⟩

end Random

/-! ## The strategies -/

section

variable {α γ : Type} [Arith α]

namespace Exponential

/-- There is one probability for each arm. -/
def Even (p : Exponential α γ) : Prop := p.probabilities.length = p.arms

theorem even_create {arms : Nat} {gamma : α} {low high : Option α} {source : γ}
    {p : Exponential α γ} (h : create arms gamma low high source = .ok p) :
    p.Even ∧ p.arms = arms := by
  obtain ⟨-, -, -, -, rfl⟩ := create_eq_ok_iff.mp h
  simp [Even, initial, Exponential.arms]

theorem Even.fed {p : Exponential α γ} (h : p.Even) (arm : Nat) (r : Reward α) :
    (p.fed arm r).Even := by
  cases hr : r.neutral with
  | true => simpa [Exponential.fed, hr, Even, arms] using h
  | false => simp [Exponential.fed, hr, Even, arms, distribution, mixed, shifted]

omit [Arith α] in
theorem Even.select [Random.Drawing α γ] [Random.Bounded α γ] {p p' : Exponential α γ}
    {a : ActionId} (h : p.Even) (hselect : p.select = some (a, p')) :
    a.toNat < p.arms ∧ p'.Even := by
  obtain ⟨⟨arm, source⟩, hdrawn, heq⟩ := Option.map_eq_some_iff.mp hselect
  cases heq
  refine ⟨Nat.lt_of_le_of_lt (ActionId.toNat_ofNat_le arm) ?_, h⟩
  split at hdrawn
  · next hweighted =>
      cases hdrawn
      exact h ▸ Random.Bounded.weighted_lt hweighted
  · exact Random.Bounded.below_lt hdrawn

end Exponential

namespace Greedy

theorem arms_create {arms : Nat} {epsilon : α} {step : Option α} {weights : Weights α}
    {source : γ} {p : Greedy α γ} (h : create arms epsilon step weights source = .ok p) :
    p.arms = arms := by
  obtain ⟨-, -, -, rfl⟩ := create_eq_ok_iff.mp h
  exact arms_initial ..

section

variable {β : Type} {property : β → Bool} {bs : List β} {place : Nat}

theorem places_eq_filter :
    places property bs = (List.range bs.length).filter fun place => bs[place]?.any property := by
  have hproperty : ∀ x ∈ bs.zipIdx, property x.1 = bs[x.2]?.any property := by
    rintro ⟨b, place⟩ hmem
    simp [List.mk_mem_zipIdx_iff_getElem?.mp hmem]
  rw [places, List.filter_congr hproperty, List.range_eq_range', ← List.zipIdx_map_snd 0 bs,
    List.filter_map]
  rfl

theorem mem_places_iff :
    place ∈ places property bs ↔ ∃ b, bs[place]? = some b ∧ property b = true := by
  rw [places_eq_filter, List.mem_filter, Option.any_eq_true]
  constructor
  · exact And.right
  · rintro ⟨b, hb, hproperty⟩
    exact ⟨List.mem_range.mpr (List.getElem?_eq_some_iff.mp hb).1, b, hb, hproperty⟩

theorem lt_of_mem_places (h : place ∈ places property bs) : place < bs.length := by
  obtain ⟨b, hb, -⟩ := mem_places_iff.mp h
  exact (List.getElem?_eq_some_iff.mp hb).1

end

theorem lt_of_mem_candidates {p : Greedy α γ} {arm : Nat} (h : arm ∈ p.candidates) :
    arm < p.arms := by
  unfold candidates at h
  split at h
  · simpa [values, arms] using lt_of_mem_places h
  · exact lt_of_mem_places h

theorem pick_lt [Random.Drawing α γ] [Random.Bounded α γ] {p : Greedy α γ} {arm : Nat}
    {source : γ} (h : p.pick = some (arm, source)) : arm < p.arms := by
  simp only [pick] at h
  split at h
  · exact Random.Bounded.below_lt h
  · obtain ⟨drawn, -, h⟩ := Option.bind_eq_some_iff.mp h
    obtain ⟨candidate, hcandidate, heq⟩ := Option.map_eq_some_iff.mp h
    cases heq
    exact lt_of_mem_candidates (List.mem_of_getElem? hcandidate)

theorem select_lt [Random.Drawing α γ] [Random.Bounded α γ] {p p' : Greedy α γ} {a : ActionId}
    (h : p.select = some (a, p')) : a.toNat < p.arms := by
  rw [select_eq] at h
  obtain ⟨⟨arm, source⟩, hpick, heq⟩ := Option.map_eq_some_iff.mp h
  cases heq
  exact Nat.lt_of_le_of_lt (ActionId.toNat_ofNat_le arm) (pick_lt hpick)

end Greedy

namespace Policy

/-- A policy of a number of arms that draws from all of them. -/
def Over (arms : Nat) : Policy α γ → Prop
  | .exponential p => p.arms = arms ∧ p.Even
  | .greedy p => p.arms = arms

theorem over_create {arms : Nat} {strategy : Strategy α} {weights : Weights α} {source : γ}
    {p : Policy α γ} (h : create arms strategy weights source = .ok p) : p.Over arms := by
  rw [create_eq_ok_iff] at h
  cases strategy with
  | exponential gamma low high =>
      obtain ⟨q, hq, rfl⟩ := h
      exact (Exponential.even_create hq).symm
  | greedy epsilon step =>
      obtain ⟨q, hq, rfl⟩ := h
      exact Greedy.arms_create hq

theorem Over.fed {p : Policy α γ} {arms : Nat} (h : p.Over arms) (arm : Nat) (r : Reward α) :
    (p.fed arm r).Over arms := by
  cases p with
  | exponential p => exact ⟨(Exponential.arms_fed p arm r).trans h.1, h.2.fed arm r⟩
  | greedy p => exact (Greedy.arms_fed p arm r).trans h

omit [Arith α] in
theorem Over.arms_eq {p : Policy α γ} {arms : Nat} (h : p.Over arms) : p.arms = arms := by
  cases p with
  | exponential p => exact h.1
  | greedy p => exact h

theorem Over.select [Random.Drawing α γ] [Random.Bounded α γ] {p p' : Policy α γ} {arms : Nat}
    {a : ActionId} (h : p.Over arms) (hselect : p.select = some (a, p')) :
    a.toNat < arms ∧ p'.Over arms := by
  cases p with
  | exponential p =>
      obtain ⟨⟨b, q⟩, hdrawn, heq⟩ := Option.map_eq_some_iff.mp hselect
      cases heq
      obtain ⟨hlt, heven⟩ := h.2.select hdrawn
      exact ⟨h.1 ▸ hlt, (Exponential.arms_of_select hdrawn).trans h.1, heven⟩
  | greedy p =>
      obtain ⟨⟨b, q⟩, hdrawn, heq⟩ := Option.map_eq_some_iff.mp hselect
      cases heq
      have hlt := Greedy.select_lt hdrawn
      exact ⟨h ▸ hlt, (Greedy.arms_of_select hdrawn).trans h⟩

end Policy

end

/-! ## A policy in the hands of its owner -/

section

variable {P : Type} [Learner P] {arms : Nat} {ok : P → Prop}

/-- A property of policies under which they draw arms only and refuse no reward for an arm. -/
structure Learner.KeepsTo (arms : Nat) (ok : P → Prop) : Prop where
  update {p : P} {a : ActionId} : ok p → a.toNat < arms →
    ∀ r, ∃ p', Learner.update p a r = .ok p' ∧ ok p'
  select {p p' : P} {a : ActionId} : ok p → Learner.select p = some (a, p') →
    a.toNat < arms ∧ ok p'

theorem Policy.keepsTo {γ : Type} [Random.Drawing Float γ] [Random.Bounded Float γ] (arms : Nat) :
    Learner.KeepsTo arms (Over arms : Policy Float γ → Prop) where
  update {p a} h hlt r := ⟨p.fed a.toNat r,
    Policy.lawful.update_of_lt (Nat.lt_of_lt_of_eq hlt h.arms_eq.symm) r, h.fed _ r⟩
  select h hselect := h.select hselect

namespace Owner

variable {update : Option (ActionId × Reward Float)}

/-- A reward for an arm is not refused. -/
theorem feed_of_keepsTo (hkeeps : Learner.KeepsTo arms ok) {p : P} (hok : ok p)
    (hupdate : ∀ a r, update = some (a, r) → a.toNat < arms) :
    (feed p update).1 = none ∧ ok (feed p update).2 := by
  cases update with
  | none => exact ⟨rfl, hok⟩
  | some u =>
      obtain ⟨a, r⟩ := u
      obtain ⟨p', hfed, hok'⟩ := hkeeps.update hok (hupdate a r rfl) r
      simp only [feed, hfed]
      exact ⟨trivial, hok'⟩

theorem step_of_keepsTo (hkeeps : Learner.KeepsTo arms ok) {owner : Owner P} (hok : ok owner.policy)
    (hupdate : ∀ a r, update = some (a, r) → a.toNat < arms) :
    ok (owner.step update).2.policy ∧
      ∀ drawn, (owner.step update).1 = some drawn →
        drawn.action.toNat < arms ∧ drawn.refused = none := by
  obtain ⟨hrefused, hfed⟩ := feed_of_keepsTo hkeeps hok hupdate
  unfold step
  split
  case isFalse => exact ⟨hok, by rintro drawn ⟨⟩⟩
  case isTrue =>
    dsimp only
    split
    next action p hselect =>
      obtain ⟨hlt, hok'⟩ := hkeeps.select hfed hselect
      refine ⟨hok', ?_⟩
      rintro drawn ⟨⟩
      exact ⟨hlt, hrefused⟩
    next hselect => exact ⟨hfed, by rintro drawn ⟨⟩⟩

end Owner

end

end LinkTuner

import LinkTuner.Proofs.Arith.Greatest
import LinkTuner.Proofs.Policy.Range
import Mathlib.Data.List.Nodup

/-!
# The candidates of a draw

A draw that does not explore chooses a candidate: one of the arms that were not tried, or if there
are none, one whose value no other exceeds. There is one as long as an arm was not tried or the
value of an arm is a number; if the values of all arms have become undefined, none of them leads and
nothing can be drawn.
-/

namespace LinkTuner

/-! ## Sources that never refuse -/

namespace Random

/-- A source of chance that can draw below every bound but zero. -/
class Willing (α γ : Type) [Drawing α γ] : Prop where
  below_isSome (bound : Nat) (g : γ) : 0 < bound → ∃ d, Drawing.below α bound g = some d

theorem drawBelow_of_pos {bound : Nat} (h : 0 < bound) (g : Gen) :
    ∃ d, drawBelow bound g = some d := by
  unfold drawBelow
  rw [if_neg (Nat.ne_of_gt h)]
  exact ⟨_, rfl⟩

instance : Willing Float Gen := ⟨fun _ g h => drawBelow_of_pos h g⟩

end Random

namespace Greedy

variable {α γ : Type} [Arith α]

open Arith

/-! ## Which arms are candidates -/

section

variable {β : Type} {property : β → Bool} {bs : List β}

theorem nodup_places : (places property bs).Nodup := by
  rw [places_eq_filter]
  exact List.nodup_range.filter _

theorem places_eq_nil_iff : places property bs = [] ↔ ∀ b ∈ bs, property b = false := by
  rw [List.eq_nil_iff_forall_not_mem]
  constructor
  · intro h b hb
    obtain ⟨place, hplace⟩ := List.mem_iff_getElem?.mp hb
    exact Bool.eq_false_iff.mpr fun hproperty => h place (mem_places_iff.mpr ⟨b, hplace, hproperty⟩)
  · intro h place hmem
    obtain ⟨b, hb, hproperty⟩ := mem_places_iff.mp hmem
    rw [h b (List.mem_of_getElem? hb)] at hproperty
    cases hproperty

end

omit [Arith α] in
theorem untried_eq_nil_iff {p : Greedy α γ} :
    p.untried = [] ↔ ∀ e ∈ p.estimates, e.count ≠ 0 := by
  simp [untried, places_eq_nil_iff]

/-- An arm leads unless no value is a number. -/
theorem leading_eq_nil_iff [Comparing α] {p : Greedy α γ} :
    p.leading = [] ↔ ∀ v ∈ p.values, isUndefined v = true := by
  rw [leading, places_eq_nil_iff]
  constructor
  · intro h v hv
    have hne := List.ne_nil_of_mem hv
    have hbest : isUndefined (greatest p.values) = true := by
      by_contra hdefined
      have hself := Comparing.le_self (Bool.eq_false_iff.mpr hdefined)
      rw [h _ (greatest_mem hne)] at hself
      cases hself
    rw [isUndefined_greatest hne, List.all_eq_true] at hbest
    exact hbest v hv
  · intro h v hv
    have hbest := h _ (greatest_mem (List.ne_nil_of_mem hv))
    cases hle : le (greatest p.values) v with
    | false => rfl
    | true =>
        rw [Comparing.defined_of_le hle] at hbest
        cases hbest

/-- No defined value exceeds that of a leading arm. -/
theorem le_of_mem_leading [Ordered α] {p : Greedy α γ} {arm : Nat} (h : arm ∈ p.leading) :
    ∃ best, p.values[arm]? = some best ∧
      ∀ v ∈ p.values, isUndefined v = false → le v best = true := by
  obtain ⟨best, hbest, hle⟩ := mem_places_iff.mp h
  exact ⟨best, hbest, fun v hv hdefined => Ordered.le_trans (le_greatest hv hdefined) hle⟩

theorem candidates_of_untried {p : Greedy α γ} (h : p.untried ≠ []) : p.candidates = p.untried :=
  if_neg (mt List.isEmpty_iff.mp h)

theorem candidates_of_tried {p : Greedy α γ} (h : p.untried = []) : p.candidates = p.leading :=
  if_pos (List.isEmpty_iff.mpr h)

theorem nodup_candidates (p : Greedy α γ) : p.candidates.Nodup := by
  unfold candidates
  split
  · exact nodup_places
  · exact nodup_places

/-- There is no candidate if and only if every arm was tried and no value is a number. -/
theorem candidates_eq_nil_iff [Comparing α] {p : Greedy α γ} :
    p.candidates = [] ↔
      (∀ e ∈ p.estimates, e.count ≠ 0) ∧ ∀ v ∈ p.values, isUndefined v = true := by
  rw [← untried_eq_nil_iff, ← leading_eq_nil_iff]
  by_cases h : p.untried = []
  · simp [candidates_of_tried h, h]
  · simp [candidates_of_untried h, h]

/-! ## What a draw chooses -/

section

variable [Random.Drawing α γ] {p : Greedy α γ} {arm : Nat} {source : γ}

/-- Whether the next draw is one of the uniform share. -/
def explores (p : Greedy α γ) : Bool := lt (Random.Drawing.unit p.source : α × γ).1 p.epsilon

theorem pick_of_not_explores (h : p.explores = false) :
    p.pick = (Random.Drawing.below α p.candidates.length
        (Random.Drawing.unit p.source : α × γ).2).bind fun d =>
      p.candidates[d.1]?.map fun arm => (arm, d.2) := by
  unfold explores at h
  simp [pick, h]

theorem mem_candidates_of_pick (h : p.explores = false) (hpick : p.pick = some (arm, source)) :
    arm ∈ p.candidates := by
  rw [pick_of_not_explores h] at hpick
  obtain ⟨d, -, hd⟩ := Option.bind_eq_some_iff.mp hpick
  obtain ⟨candidate, hcandidate, heq⟩ := Option.map_eq_some_iff.mp hd
  cases heq
  exact List.mem_of_getElem? hcandidate

/-- The next draw answers the arm in a place. -/
structure Draws (p : Greedy α γ) (arm : Nat) (source : γ) : Prop where
  place : p.pick = some (arm, source)
  action : p.select = some (.ofNat arm, { p with source })

theorem draws_of_pick (h : p.pick = some (arm, source)) : p.Draws arm source :=
  ⟨h, by rw [select_eq, h]; rfl⟩

variable [Random.Bounded α γ] [Random.Willing α γ]

/-- A draw that does not explore chooses a candidate as long as there is one. -/
theorem exists_draws (h : p.explores = false) (hne : p.candidates ≠ []) :
    ∃ arm source, p.Draws arm source ∧ arm ∈ p.candidates := by
  obtain ⟨d, hd⟩ : ∃ d, Random.Drawing.below α p.candidates.length
      (Random.Drawing.unit p.source : α × γ).2 = some d :=
    Random.Willing.below_isSome _ _ (List.length_pos_iff.mpr hne)
  have hlt : d.1 < p.candidates.length := Random.Bounded.below_lt hd
  have hpick : p.pick = some (p.candidates[d.1], d.2) := by
    simp [pick_of_not_explores h, hd, hlt]
  exact ⟨_, _, draws_of_pick hpick, mem_candidates_of_pick h hpick⟩

/-- Nothing can be drawn if and only if the draw does not explore and there is no candidate. -/
theorem select_eq_none_iff (harms : 0 < p.arms) :
    p.select = none ↔ p.explores = false ∧ p.candidates = [] := by
  rw [select_eq, Option.map_eq_none_iff]
  cases h : p.explores with
  | true =>
      obtain ⟨d, hd⟩ : ∃ d, Random.Drawing.below α p.arms
          (Random.Drawing.unit p.source : α × γ).2 = some d :=
        Random.Willing.below_isSome _ _ harms
      unfold explores at h
      simp [pick, h, hd]
  | false =>
      rw [eq_self, true_and]
      constructor
      · intro hnone
        by_contra hne
        obtain ⟨arm, source, hdraws, -⟩ := exists_draws h hne
        cases hnone.symm.trans hdraws.place
      · intro hnil
        simp [pick_of_not_explores h, hnil]

end

end Greedy

end LinkTuner

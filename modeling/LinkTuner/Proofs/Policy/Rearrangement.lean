import LinkTuner.Proofs.Policy.Play

/-!
# Rewards of different arms can change places

Between two draws, only the order of the rewards of one and the same arm matters. Two runs that
agree on these orders draw the same arms and leave the same strategy, down to the last bit: nothing
is assumed of the arithmetic.

The strategies differ in why this holds. Estimates are kept for each arm on its own. With
exponential weights every reward makes all probabilities anew, but from the log-weights alone, and
what a reward adds to a log-weight is read off the distribution of the latest draw, which no reward
touches.
-/

namespace LinkTuner

section Fold

variable {σ β : Type} {f : σ → β → σ}

/-- An element that can change places with each of a list can be taken before or after it. -/
theorem foldl_comm_of_forall {x : β} {l : List β}
    (h : ∀ s, ∀ y ∈ l, f (f s x) y = f (f s y) x) (s : σ) :
    l.foldl f (f s x) = f (l.foldl f s) x := by
  induction l generalizing s with
  | nil => rfl
  | cons y l ih =>
      rw [List.foldl_cons, List.foldl_cons, h s y (by simp)]
      exact ih (fun t z hz => h t z (by simp [hz])) (f s y)

/-- A fold is determined by the order among the elements of each key, if elements of different keys
can change places. -/
theorem foldl_eq_of_filter_eq {κ : Type} [DecidableEq κ] {key : β → κ}
    (hcomm : ∀ s x y, key x ≠ key y → f (f s x) y = f (f s y) x) {xs ys : List β}
    (h : ∀ k, xs.filter (key · = k) = ys.filter (key · = k)) (s : σ) :
    xs.foldl f s = ys.foldl f s := by
  induction xs generalizing ys s with
  | nil =>
      cases ys with
      | nil => rfl
      | cons y ys =>
          have hy := h (key y)
          simp at hy
  | cons x xs ih =>
      -- the first element of `ys` with the key of `x` is `x`: it is brought to the front
      have hx := h (key x)
      rw [List.filter_cons_of_pos (by simp)] at hx
      obtain ⟨before, after, rfl, hbefore, -, hafter⟩ := List.filter_eq_cons_iff.mp hx.symm
      have hrest : ∀ k, xs.filter (key · = k) = (before ++ after).filter (key · = k) := by
        intro k
        by_cases hk : k = key x
        · subst hk
          rw [List.filter_append, List.filter_eq_nil_iff.mpr hbefore, List.nil_append, hafter]
        · have hk' := h k
          simpa [Ne.symm hk] using hk'
      have hfront : before.foldl f (f s x) = f (before.foldl f s) x := by
        refine foldl_comm_of_forall (fun t y hy => hcomm t x y ?_) s
        have hne := hbefore y hy
        simpa [eq_comm] using hne
      rw [List.foldl_cons, ih hrest, List.foldl_append, hfront, List.foldl_append, List.foldl_cons]

end Fold

variable {α P : Type}

/-- The same rewards for every arm, in the same order; actions that are no arms do not count. -/
def SameForEachArm (arms : Nat) (us vs : List (ActionId × Reward α)) : Prop :=
  ∀ a : ActionId, a.toNat < arms → us.filter (·.1 = a) = vs.filter (·.1 = a)

/-- Two runs with the same number of draws that have, before the first draw, between any two and
after the last, the same rewards for every arm in the same order. -/
inductive Rearranged (arms : Nat) : List (Turn α) → List (Turn α) → Prop where
  | last {us vs : List (ActionId × Reward α)} (h : SameForEachArm arms us vs) :
      Rearranged arms (feeding us) (feeding vs)
  | draw {us vs : List (ActionId × Reward α)} {xs ys : List (Turn α)}
      (h : SameForEachArm arms us vs) (rest : Rearranged arms xs ys) :
      Rearranged arms (feeding us ++ .draw :: xs) (feeding vs ++ .draw :: ys)

namespace Moves.Lawful

variable {m : Moves α P} {fed : P → Nat → Reward α → P} (hm : m.Lawful fed)
include hm

/-- Rewards for actions that are no arms can be left out. -/
theorem foldl_feed_filter (p : P) (us : List (ActionId × Reward α)) :
    (us.filter fun u => u.1.toNat < m.arms p).foldl m.feed p = us.foldl m.feed p := by
  induction us generalizing p with
  | nil => rfl
  | cons u us ih =>
      by_cases hu : u.1.toNat < m.arms p
      · rw [List.filter_cons_of_pos (by simpa using hu), List.foldl_cons, List.foldl_cons,
          ← ih (m.feed p u), hm.arms_feed]
      · rw [List.filter_cons_of_neg (by simpa using hu), List.foldl_cons,
          hm.feed_of_le (Nat.le_of_not_lt hu), ih p]

theorem foldl_feed_eq {p : P} {us vs : List (ActionId × Reward α)}
    (h : SameForEachArm (m.arms p) us vs) : us.foldl m.feed p = vs.foldl m.feed p := by
  rw [← hm.foldl_feed_filter p us, ← hm.foldl_feed_filter p vs]
  refine foldl_eq_of_filter_eq (fun q u v huv => hm.feed_comm q huv) (fun a => ?_) p
  rw [List.filter_filter, List.filter_filter]
  by_cases ha : a.toNat < m.arms p
  · have hsame (l : List (ActionId × Reward α)) :
        l.filter (fun u => u.1 = a && u.1.toNat < m.arms p) = l.filter (·.1 = a) := by
      apply List.filter_congr
      intro u _
      by_cases hu : u.1 = a <;> simp [hu, ha]
    rw [hsame, hsame, h a ha]
  · have hnone (l : List (ActionId × Reward α)) :
        l.filter (fun u => u.1 = a && u.1.toNat < m.arms p) = [] := by
      apply List.filter_eq_nil_iff.mpr
      intro u _
      by_cases hu : u.1 = a <;> simp [hu, ha]
    rw [hnone, hnone]

/-- Rearranged runs draw the same arms and leave the same strategy. -/
theorem play_eq {p : P} {xs ys : List (Turn α)} (h : Rearranged (m.arms p) xs ys) :
    m.play p xs = m.play p ys := by
  generalize hn : m.arms p = n at h
  induction h generalizing p with
  | last h =>
      subst hn
      have hplay (us : List (ActionId × Reward α)) :
          m.play p (feeding us) = ([], some (us.foldl m.feed p)) := by
        simpa [play] using m.play_feeding p us []
      rw [hplay, hplay, hm.foldl_feed_eq h]
  | @draw us vs xs ys h rest ih =>
      subst hn
      rw [play_feeding, play_feeding, hm.foldl_feed_eq h]
      simp only [play]
      cases hselect : m.select (vs.foldl m.feed p) with
      | none => rfl
      | some drawn =>
          have harms : m.arms drawn.2 = m.arms p :=
            (hm.arms_select hselect).trans (hm.arms_foldl_feed p vs)
          simp only [ih harms]

end Moves.Lawful

/-- Between two draws rewards of different arms can be fed in any order, and actions that are no
arms anywhere: from every state of either strategy, and so of a policy, rearranged runs draw the
same arms and end in the same state. The numbers can be any, doubles among them. -/
theorem rearranged_runs_agree {α γ : Type} [Arith α] [Random.Drawing α γ] :
    (∀ (p : Exponential α γ) {xs ys : List (Turn α)}, Rearranged p.arms xs ys →
      Exponential.moves.play p xs = Exponential.moves.play p ys) ∧
    (∀ (p : Greedy α γ) {xs ys : List (Turn α)}, Rearranged p.arms xs ys →
      Greedy.moves.play p xs = Greedy.moves.play p ys) ∧
    (∀ (p : Policy α γ) {xs ys : List (Turn α)}, Rearranged p.arms xs ys →
      Policy.moves.play p xs = Policy.moves.play p ys) := by
  refine ⟨?_, ?_, ?_⟩
  · intro p xs ys h
    exact Exponential.lawful.play_eq h
  · intro p xs ys h
    exact Greedy.lawful.play_eq h
  · intro p xs ys h
    exact Policy.lawful.play_eq h

section

/-- Three arms with unequal probabilities, over doubles. -/
private def threeArms : Exponential Float Random.Gen :=
  ⟨0.5, 0, 1, [0, 0, 0], [0.25, 0.5, 0.25], [0.25, 0.5, 0.25], 0, .ofSeed 7⟩

/-- Rewards for two arms, the last of them neutral, and one for no arm. -/
private def inTurn : List (ActionId × Reward Float) :=
  [(.ofNat 0, .ofValue 1.0), (.ofNat 1, .ofValue 0.1), (.ofNat 7, .ofValue 0.2),
    (.ofNat 0, .uninformative)]

/-- The same rewards, those of the second arm first. -/
private def secondFirst : List (ActionId × Reward Float) :=
  [(.ofNat 1, .ofValue 0.1), (.ofNat 0, .ofValue 1.0), (.ofNat 0, .uninformative)]

theorem rearranged_runs_agree_three_arms :
    Rearranged threeArms.arms
      (feeding [] ++ .draw :: (feeding inTurn ++ .draw :: feeding []))
      (feeding [] ++ .draw :: (feeding secondFirst ++ .draw :: feeding [])) ∧
    Exponential.moves.play threeArms
      (feeding [] ++ .draw :: (feeding inTurn ++ .draw :: feeding [])) =
    Exponential.moves.play threeArms
      (feeding [] ++ .draw :: (feeding secondFirst ++ .draw :: feeding [])) := by
  have hsame : SameForEachArm threeArms.arms inTurn secondFirst := by
    intro a ha
    have hout : ActionId.ofNat 7 ≠ a := by
      rintro rfl
      exact absurd ha (by decide)
    by_cases h₀ : ActionId.ofNat 0 = a
    · have h₁ : ActionId.ofNat 1 ≠ a := by
        rw [← h₀]
        decide
      simp [inTurn, secondFirst, h₀, h₁, hout]
    · by_cases h₁ : ActionId.ofNat 1 = a <;> simp [inTurn, secondFirst, h₀, h₁, hout]
  have hnone : SameForEachArm threeArms.arms ([] : List (ActionId × Reward Float)) [] :=
    fun _ _ => rfl
  have h := Rearranged.draw hnone (.draw hsame (.last hnone))
  exact ⟨h, rearranged_runs_agree.1 threeArms h⟩

end

end LinkTuner

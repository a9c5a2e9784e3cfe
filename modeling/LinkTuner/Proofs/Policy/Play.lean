import LinkTuner.Policy.Basic
import Mathlib.Data.List.Forall2

/-!
# Runs of a strategy

A run draws arms and feeds rewards, one after another. A reward that is refused leaves the strategy
as it was; a run ends early when nothing can be drawn. Runs are read over any strategy, given by
what it can do, so that what is proved of runs holds of each strategy and of their sum.
-/

namespace LinkTuner

namespace ActionId

variable {a b : ActionId} {n : Nat}

theorem toNat_injective (h : a.toNat = b.toNat) : a = b := by
  cases a
  cases b
  exact congrArg ActionId.mk (UInt32.toNat_inj.mp h)

theorem toNat_ofNat_le (n : Nat) : (ofNat n).toNat ≤ n := by
  simpa [ofNat, toNat] using Nat.mod_le n _

theorem toNat_ofNat (h : n < UInt32.size) : (ofNat n).toNat = n := by
  rw [ofNat, toNat, UInt32.toNat_ofNat']
  exact Nat.mod_eq_of_lt h

theorem ofNat_toNat : ofNat a.toNat = a := by
  simp only [ofNat, toNat, UInt32.ofNat_toNat]

/-- A number in range is that of exactly one action. -/
theorem ofNat_eq_iff (h : n < UInt32.size) : ofNat n = a ↔ a.toNat = n := by
  constructor
  · rintro rfl
    exact toNat_ofNat h
  · rintro rfl
    exact ofNat_toNat

end ActionId

/-- What a run needs of a strategy. -/
structure Moves (α P : Type) where
  arms : P → Nat
  select : P → Option (ActionId × P)
  update : P → ActionId → Reward α → Except ActionFault P

/-- One turn of a run. -/
inductive Turn (α : Type) where
  | draw
  | feed (action : ActionId) (reward : Reward α)

/-- The turns that feed rewards. -/
def feeding {α : Type} (us : List (ActionId × Reward α)) : List (Turn α) :=
  us.map fun u => .feed u.1 u.2

namespace Moves

variable {α P : Type} (m : Moves α P)

/-- The strategy after a reward, which may be refused. -/
def feed (p : P) (u : ActionId × Reward α) : P :=
  match m.update p u.1 u.2 with
  | .ok p' => p'
  | .error _ => p

/-- A run: the arms it draws, and the strategy afterwards unless a draw failed. -/
def play (p : P) : List (Turn α) → List ActionId × Option P
  | [] => ([], some p)
  | .feed action reward :: rest => play (m.feed p (action, reward)) rest
  | .draw :: rest =>
    match m.select p with
    | none => ([], none)
    | some (action, p') =>
      let (drawn, last) := play p' rest
      (action :: drawn, last)

theorem play_feeding (p : P) (us : List (ActionId × Reward α)) (rest : List (Turn α)) :
    m.play p (feeding us ++ rest) = m.play (us.foldl m.feed p) rest := by
  induction us generalizing p with
  | nil => rfl
  | cons u us ih => exact ih (m.feed p u)

/-- A run that begins with a draw goes on from the strategy after it. -/
theorem exists_select_of_play {p q : P} {rest : List (Turn α)} {drawn : List ActionId}
    (h : m.play p (.draw :: rest) = (drawn, some q)) :
    ∃ a p' later, m.select p = some (a, p') ∧ m.play p' rest = (later, some q) ∧
      drawn = a :: later := by
  simp only [play] at h
  split at h
  · cases h
  · next a p' hselect =>
      obtain ⟨hdrawn, hlast⟩ := Prod.mk.inj h
      exact ⟨a, p', _, hselect, Prod.ext rfl hlast, hdrawn.symm⟩

theorem play_append {p q : P} {xs : List (Turn α)} {drawn : List ActionId}
    (h : m.play p xs = (drawn, some q)) (ys : List (Turn α)) :
    m.play p (xs ++ ys) = (drawn ++ (m.play q ys).1, (m.play q ys).2) := by
  induction xs generalizing p drawn with
  | nil =>
      cases h
      rfl
  | cons turn rest ih =>
      cases turn with
      | feed a r => exact ih h
      | draw =>
          obtain ⟨a, p', later, hselect, hrest, rfl⟩ := m.exists_select_of_play h
          simp only [List.cons_append, play, hselect, ih hrest]

/-- A run is its beginning and a run that goes on from there. -/
theorem exists_play_of_append {p q : P} {xs ys : List (Turn α)} {drawn : List ActionId}
    (h : m.play p (xs ++ ys) = (drawn, some q)) :
    ∃ p' before after, m.play p xs = (before, some p') ∧ m.play p' ys = (after, some q) := by
  induction xs generalizing p drawn with
  | nil => exact ⟨p, [], drawn, rfl, h⟩
  | cons turn rest ih =>
      cases turn with
      | feed a r => exact ih h
      | draw =>
          obtain ⟨a, p₁, later, hselect, hrest, -⟩ := m.exists_select_of_play h
          obtain ⟨p', before, after, hbefore, hafter⟩ := ih hrest
          exact ⟨p', a :: before, after, by simp only [play, hselect, hbefore], hafter⟩

/-- What the rewards of a run and its draws keep holds at its end. -/
theorem invariant_play {ok : P → Prop} {xs : List (Turn α)}
    (hfeed : ∀ p a r, .feed a r ∈ xs → ok p → ok (m.feed p (a, r)))
    (hselect : ∀ p a p', ok p → m.select p = some (a, p') → ok p') {p q : P}
    {drawn : List ActionId} (hp : ok p) (h : m.play p xs = (drawn, some q)) : ok q := by
  induction xs generalizing p drawn with
  | nil =>
      cases h
      exact hp
  | cons turn rest ih =>
      have ih' := @ih fun p a r hmem => hfeed p a r (List.mem_cons_of_mem turn hmem)
      cases turn with
      | feed a r => exact ih' (hfeed p a r List.mem_cons_self hp) h
      | draw =>
          obtain ⟨a, p', later, hdrawn, hrest, -⟩ := m.exists_select_of_play h
          exact ih' (hselect p a p' hp hdrawn) hrest

/-- A run whose draws cannot fail comes to its end. -/
theorem exists_play {ok : P → Prop} {xs : List (Turn α)}
    (hfeed : ∀ p a r, .feed a r ∈ xs → ok p → ok (m.feed p (a, r)))
    (hselect : ∀ p, ok p → ∃ a p', m.select p = some (a, p') ∧ ok p') {p : P} (hp : ok p) :
    ∃ drawn q, m.play p xs = (drawn, some q) ∧ ok q := by
  induction xs generalizing p with
  | nil => exact ⟨[], p, rfl, hp⟩
  | cons turn rest ih =>
      have ih' := @ih fun p a r hmem => hfeed p a r (List.mem_cons_of_mem turn hmem)
      cases turn with
      | feed a r => exact ih' (hfeed p a r List.mem_cons_self hp)
      | draw =>
          obtain ⟨a, p', hdrawn, hp'⟩ := hselect p hp
          obtain ⟨drawn, q, hrest, hq⟩ := ih' hp'
          exact ⟨a :: drawn, q, by simp only [play, hdrawn, hrest], hq⟩

/-- What every strategy keeps to: it refuses exactly the rewards for arms it does not have, it never
changes their number, and rewards for two arms can change places. -/
structure Lawful (m : Moves α P) (fed : P → Nat → Reward α → P) : Prop where
  update_of_lt : ∀ {p a}, a.toNat < m.arms p → ∀ r, m.update p a r = .ok (fed p a.toNat r)
  update_of_le : ∀ {p a}, m.arms p ≤ a.toNat → ∀ r, m.update p a r = .error (.outside a (m.arms p))
  arms_fed : ∀ p arm r, m.arms (fed p arm r) = m.arms p
  arms_select : ∀ {p a p'}, m.select p = some (a, p') → m.arms p' = m.arms p
  fed_comm : ∀ p {arm other}, arm ≠ other → ∀ r s,
    fed (fed p arm r) other s = fed (fed p other s) arm r

namespace Lawful

variable {m} {fed : P → Nat → Reward α → P} (hm : m.Lawful fed)
include hm

theorem feed_of_lt {p : P} {u : ActionId × Reward α} (h : u.1.toNat < m.arms p) :
    m.feed p u = fed p u.1.toNat u.2 := by
  simp [feed, hm.update_of_lt h]

theorem feed_of_le {p : P} {u : ActionId × Reward α} (h : m.arms p ≤ u.1.toNat) :
    m.feed p u = p := by
  simp [feed, hm.update_of_le h]

theorem arms_feed (p : P) (u : ActionId × Reward α) : m.arms (m.feed p u) = m.arms p := by
  by_cases h : u.1.toNat < m.arms p
  · rw [hm.feed_of_lt h, hm.arms_fed]
  · rw [hm.feed_of_le (Nat.le_of_not_lt h)]

theorem arms_foldl_feed (p : P) (us : List (ActionId × Reward α)) :
    m.arms (us.foldl m.feed p) = m.arms p := by
  induction us generalizing p with
  | nil => rfl
  | cons u us ih => exact (ih _).trans (hm.arms_feed p u)

theorem arms_play {p q : P} {xs : List (Turn α)} {drawn : List ActionId}
    (h : m.play p xs = (drawn, some q)) : m.arms q = m.arms p := by
  have hfeed (q : P) (a : ActionId) (r : Reward α) (_ : .feed a r ∈ xs)
      (hq : m.arms q = m.arms p) : m.arms (m.feed q (a, r)) = m.arms p :=
    (hm.arms_feed q (a, r)).trans hq
  exact m.invariant_play hfeed (fun _ _ _ hq hselect => (hm.arms_select hselect).trans hq) rfl h

/-- Rewards for two actions can change places, whether there are such arms or not. -/
theorem feed_comm (p : P) {u v : ActionId × Reward α} (h : u.1 ≠ v.1) :
    m.feed (m.feed p u) v = m.feed (m.feed p v) u := by
  have harm : u.1.toNat ≠ v.1.toNat := fun heq => h (ActionId.toNat_injective heq)
  by_cases hu : u.1.toNat < m.arms p
  · by_cases hv : v.1.toNat < m.arms p
    · rw [hm.feed_of_lt hu, hm.feed_of_lt hv, hm.feed_of_lt (by rwa [hm.arms_fed]),
        hm.feed_of_lt (by rwa [hm.arms_fed]), hm.fed_comm p harm]
    · have hout := Nat.le_of_not_lt hv
      rw [hm.feed_of_le hout]
      exact hm.feed_of_le (by rwa [hm.arms_feed])
  · have hout := Nat.le_of_not_lt hu
    rw [hm.feed_of_le hout]
    exact (hm.feed_of_le (by rwa [hm.arms_feed])).symm

end Lawful

end Moves

section

variable {α γ : Type} [Arith α]

/-! ## Exponential weights -/

namespace Exponential

/-- The runs of the strategy. -/
def moves [Random.Drawing α γ] : Moves α (Exponential α γ) := ⟨arms, select, update⟩

/-- What a reward adds to the log-weight of its arm. -/
def gain (p : Exponential α γ) (arm : Nat) (value : α) : α :=
  p.gamma * p.estimate arm value / (p.arms : α)

/-- The strategy after a reward for one of its arms. -/
def fed (p : Exponential α γ) (arm : Nat) (reward : Reward α) : Exponential α γ :=
  if reward.neutral then { p with updates := p.updates + 1 }
  else
    { p with
      logWeights := p.logWeights.modify arm (· + p.gain arm reward.value)
      probabilities := distribution p.gamma (p.logWeights.modify arm (· + p.gain arm reward.value))
      updates := p.updates + 1 }

theorem update_of_lt {p : Exponential α γ} {a : ActionId} (h : a.toNat < p.arms) (r : Reward α) :
    p.update a r = .ok (p.fed a.toNat r) := by
  simp only [update, checkArm, h, if_true, fed]
  cases r.neutral <;> rfl

theorem update_of_le {p : Exponential α γ} {a : ActionId} (h : p.arms ≤ a.toNat) (r : Reward α) :
    p.update a r = .error (.outside a p.arms) := by
  simp only [update, checkArm, Nat.not_lt.mpr h, if_false]
  rfl

@[simp] theorem arms_fed (p : Exponential α γ) (arm : Nat) (r : Reward α) :
    (p.fed arm r).arms = p.arms := by
  cases h : r.neutral <;> simp [fed, h, arms]

/-- What a reward adds is read off the distribution of the latest draw, which no reward changes. -/
@[simp] theorem gain_fed (p : Exponential α γ) (arm : Nat) (r : Reward α) (other : Nat)
    (value : α) : (p.fed arm r).gain other value = p.gain other value := by
  have harms := arms_fed p arm r
  cases h : r.neutral <;>
    simp_all [fed, gain, estimate, chance, floor, normalize, bounded]

/-- Rewards for two arms can change places. -/
theorem fed_comm (p : Exponential α γ) {arm other : Nat} (h : arm ≠ other) (r s : Reward α) :
    (p.fed arm r).fed other s = (p.fed other s).fed arm r := by
  have hgain := gain_fed p arm r other s.value
  have hgain' := gain_fed p other s arm r.value
  cases hr : r.neutral <;> cases hs : s.neutral <;>
    simp_all [fed, List.modify_modify_ne _ _ _ h]

omit [Arith α] in
theorem arms_of_select [Random.Drawing α γ] {p p' : Exponential α γ} {a : ActionId}
    (h : p.select = some (a, p')) : p'.arms = p.arms := by
  obtain ⟨drawn, -, heq⟩ := Option.map_eq_some_iff.mp h
  cases heq
  rfl

theorem lawful [Random.Drawing α γ] : (moves : Moves α (Exponential α γ)).Lawful fed where
  update_of_lt := update_of_lt
  update_of_le := update_of_le
  arms_fed := arms_fed
  arms_select := arms_of_select
  fed_comm := fed_comm

end Exponential

/-! ## Estimates -/

namespace Greedy

/-- The runs of the strategy. -/
def moves [Random.Drawing α γ] : Moves α (Greedy α γ) := ⟨arms, select, update⟩

/-- The strategy after a reward for one of its arms. -/
def fed (p : Greedy α γ) (arm : Nat) (reward : Reward α) : Greedy α γ :=
  if reward.neutral then { p with updates := p.updates + 1 }
  else
    { p with
      estimates := p.estimates.modify arm (learn p.step (bounded reward))
      updates := p.updates + 1 }

theorem update_of_lt {p : Greedy α γ} {a : ActionId} (h : a.toNat < p.arms) (r : Reward α) :
    p.update a r = .ok (p.fed a.toNat r) := by
  simp only [update, checkArm, h, if_true, fed]
  cases r.neutral <;> rfl

theorem update_of_le {p : Greedy α γ} {a : ActionId} (h : p.arms ≤ a.toNat) (r : Reward α) :
    p.update a r = .error (.outside a p.arms) := by
  simp only [update, checkArm, Nat.not_lt.mpr h, if_false]
  rfl

@[simp] theorem arms_fed (p : Greedy α γ) (arm : Nat) (r : Reward α) :
    (p.fed arm r).arms = p.arms := by
  cases h : r.neutral <;> simp [fed, h, arms]

/-- Rewards for two arms can change places. -/
theorem fed_comm (p : Greedy α γ) {arm other : Nat} (h : arm ≠ other) (r s : Reward α) :
    (p.fed arm r).fed other s = (p.fed other s).fed arm r := by
  cases hr : r.neutral <;> cases hs : s.neutral <;>
    simp [fed, hr, hs, List.modify_modify_ne _ _ _ h]

/-- The place of the next arm, and the source of chance after it was drawn. -/
def pick [Random.Drawing α γ] (p : Greedy α γ) : Option (Nat × γ) :=
  let drawn : α × γ := Random.Drawing.unit p.source
  if Arith.lt drawn.1 p.epsilon then Random.Drawing.below α p.arms drawn.2
  else
    (Random.Drawing.below α p.candidates.length drawn.2).bind fun d =>
      p.candidates[d.1]?.map fun arm => (arm, d.2)

/-- A draw changes nothing but the source of chance. -/
theorem select_eq [Random.Drawing α γ] (p : Greedy α γ) :
    p.select = p.pick.map fun d => (.ofNat d.1, { p with source := d.2 }) := by
  simp only [select, pick]
  split
  · rfl
  · cases Random.Drawing.below α p.candidates.length (Random.Drawing.unit p.source : α × γ).2 with
    | none => rfl
    | some d => cases h : p.candidates[d.1]? <;> simp [h]

theorem arms_of_select [Random.Drawing α γ] {p p' : Greedy α γ} {a : ActionId}
    (h : p.select = some (a, p')) : p'.arms = p.arms := by
  rw [select_eq] at h
  obtain ⟨drawn, -, heq⟩ := Option.map_eq_some_iff.mp h
  cases heq
  rfl

theorem lawful [Random.Drawing α γ] : (moves : Moves α (Greedy α γ)).Lawful fed where
  update_of_lt := update_of_lt
  update_of_le := update_of_le
  arms_fed := arms_fed
  arms_select := arms_of_select
  fed_comm := fed_comm

end Greedy

/-! ## Their sum -/

namespace Policy

/-- The runs of a policy. -/
def moves [Random.Drawing α γ] : Moves α (Policy α γ) := ⟨arms, select, update⟩

/-- The policy after a reward for one of its arms. -/
def fed : Policy α γ → Nat → Reward α → Policy α γ
  | .exponential p, arm, r => .exponential (p.fed arm r)
  | .greedy p, arm, r => .greedy (p.fed arm r)

theorem lawful [Random.Drawing α γ] : (moves : Moves α (Policy α γ)).Lawful fed where
  update_of_lt := by
    rintro (p | p) a h r
    · exact congrArg (Except.map exponential) (Exponential.update_of_lt h r)
    · exact congrArg (Except.map greedy) (Greedy.update_of_lt h r)
  update_of_le := by
    rintro (p | p) a h r
    · exact congrArg (Except.map exponential) (Exponential.update_of_le h r)
    · exact congrArg (Except.map greedy) (Greedy.update_of_le h r)
  arms_fed := by
    rintro (p | p) arm r
    · exact Exponential.arms_fed p arm r
    · exact Greedy.arms_fed p arm r
  arms_select := by
    rintro (p | p) a p' h
    · obtain ⟨drawn, hdrawn, heq⟩ := Option.map_eq_some_iff.mp h
      cases heq
      exact Exponential.arms_of_select hdrawn
    · obtain ⟨drawn, hdrawn, heq⟩ := Option.map_eq_some_iff.mp h
      cases heq
      exact Greedy.arms_of_select hdrawn
  fed_comm := by
    rintro (p | p) arm other h r s
    · exact congrArg exponential (Exponential.fed_comm p h r s)
    · exact congrArg greedy (Greedy.fed_comm p h r s)

end Policy

end

end LinkTuner

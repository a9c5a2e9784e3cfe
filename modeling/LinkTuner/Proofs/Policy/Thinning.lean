import LinkTuner.Proofs.Policy.Creation
import LinkTuner.Proofs.Policy.Play

/-!
# What teaches nothing changes nothing

Looks at a strategy, neutral rewards and rewards for actions that are no arms can be left out of a
run: the same arms are drawn, and the strategy ends in the same state but for the number of rewards
it accepted. That number counts neutral rewards, so it is set aside by `recount` and looked at on
its own.
-/

namespace LinkTuner

/-- One use of a strategy. -/
inductive Use (α : Type) where
  | draw
  | feed (action : ActionId) (reward : Reward α)
  | look

/-- Whether a use can change what a strategy of some arms draws or learns. -/
def Use.tells {α : Type} (arms : Nat) : Use α → Bool
  | .draw => true
  | .feed action reward => action.toNat < arms && !reward.neutral
  | .look => false

/-- What a use answers. -/
inductive Response (α : Type) where
  | drawn (action : ActionId)
  | fed (refused : Option ActionFault)
  | seen (snapshot : Snapshot α)

namespace Response

variable {α : Type}

/-- The arm that was drawn, if one was. -/
def arm? : Response α → Option ActionId
  | .drawn action => some action
  | _ => none

/-- Whether a reward was accepted. -/
def isAccepted : Response α → Bool
  | .fed refused => refused.isNone
  | _ => false

end Response

/-- What a run needs of a strategy that is looked at, too. -/
structure Watched (α P : Type) extends Moves α P where
  snapshot : P → Snapshot α

namespace Watched

variable {α P : Type} (w : Watched α P)

/-- Why a reward is refused, if it is. -/
def refusal (p : P) (action : ActionId) (reward : Reward α) : Option ActionFault :=
  match w.update p action reward with
  | .ok _ => none
  | .error fault => some fault

/-- A run: what its uses answer, and the strategy afterwards unless a draw failed. -/
def run (p : P) : List (Use α) → List (Response α) × Option P
  | [] => ([], some p)
  | .look :: rest =>
    let after := run p rest
    (.seen (w.snapshot p) :: after.1, after.2)
  | .feed action reward :: rest =>
    let after := run (w.feed p (action, reward)) rest
    (.fed (w.refusal p action reward) :: after.1, after.2)
  | .draw :: rest =>
    match w.select p with
    | none => ([], none)
    | some (action, p') =>
      let after := run p' rest
      (.drawn action :: after.1, after.2)

/-- The arms that a run draws. -/
def drawn (p : P) (uses : List (Use α)) : List ActionId := (w.run p uses).1.filterMap (·.arm?)

/-- The uses of a run that can change what is drawn or learnt. -/
def telling (p : P) (uses : List (Use α)) : List (Use α) := uses.filter (·.tells (w.arms p))

/-- A strategy keeps count of the rewards it accepts and does nothing else with their number. -/
structure Counts (fed : P → Nat → Reward α → P) (recount : P → Nat → P) : Prop where
  lawful : w.toMoves.Lawful fed
  arms_recount : ∀ p n, w.arms (recount p n) = w.arms p
  recount_recount : ∀ p m n, recount (recount p m) n = recount p n
  select_recount : ∀ p n, w.select (recount p n) = (w.select p).map fun d => (d.1, recount d.2 n)
  fed_recount : ∀ p n arm r, fed (recount p n) arm r = recount (fed p arm r) (n + 1)
  fed_neutral : ∀ p arm {r : Reward α}, r.neutral = true →
    fed p arm r = recount p ((w.snapshot p).updates + 1)
  recount_updates : ∀ p, recount p (w.snapshot p).updates = p
  updates_fed : ∀ p arm r, (w.snapshot (fed p arm r)).updates = (w.snapshot p).updates + 1
  updates_select : ∀ {p a p'}, w.select p = some (a, p') →
    (w.snapshot p').updates = (w.snapshot p).updates

namespace Counts

variable {w} {fed : P → Nat → Reward α → P} {recount : P → Nat → P} (hw : w.Counts fed recount)
include hw

/-- A reward that tells nothing is at most counted. -/
theorem feed_of_not_tells {p : P} {action : ActionId} {reward : Reward α}
    (h : ¬(Use.feed action reward).tells (w.arms p) = true) :
    ∃ n, w.feed p (action, reward) = recount p n := by
  by_cases haction : action.toNat < w.arms p
  · have hneutral : reward.neutral = true := by simpa [Use.tells, haction] using h
    exact ⟨_, (hw.lawful.feed_of_lt haction).trans (hw.fed_neutral p _ hneutral)⟩
  · refine ⟨(w.snapshot p).updates, ?_⟩
    rw [hw.recount_updates]
    exact hw.lawful.feed_of_le (Nat.le_of_not_lt haction)

/-- What a reward tells does not depend on how many were accepted before. -/
theorem feed_recount_of_tells {p : P} {action : ActionId} {reward : Reward α}
    (h : (Use.feed action reward).tells (w.arms p) = true) (n : Nat) :
    w.feed (recount p n) (action, reward) = recount (w.feed p (action, reward)) (n + 1) := by
  have haction : action.toNat < w.arms p := by
    have h' := h
    simp only [Use.tells, Bool.and_eq_true, decide_eq_true_eq] at h'
    exact h'.1
  have haction' : action.toNat < w.arms (recount p n) := by rwa [hw.arms_recount]
  rw [hw.lawful.feed_of_lt haction', hw.fed_recount, hw.lawful.feed_of_lt haction]

/-- The uses of a run that tell something draw the arms of the whole run and end in its state, with
whatever count they begin. -/
theorem run_telling (p : P) (uses : List (Use α)) (n : Nat) :
    w.drawn (recount p n) (w.telling p uses) = w.drawn p uses ∧
      ∃ m, (w.run (recount p n) (w.telling p uses)).2 = (w.run p uses).2.map (recount · m) := by
  induction uses generalizing p n with
  | nil => exact ⟨rfl, n, rfl⟩
  | cons use rest ih =>
      cases use with
      | look => exact ih p n
      | draw =>
          have hkept : w.telling p (.draw :: rest) = .draw :: w.telling p rest := rfl
          have hselect := hw.select_recount p n
          rw [hkept]
          cases hp : w.select p with
          | none =>
              rw [hp] at hselect
              exact ⟨by simp [drawn, run, hp, hselect], n, by simp [run, hp, hselect]⟩
          | some d =>
              rw [hp] at hselect
              have harms : w.telling d.2 rest = w.telling p rest := by
                rw [telling, hw.lawful.arms_select hp, telling]
              obtain ⟨hdrawn, m, hlast⟩ := ih d.2 n
              rw [harms] at hdrawn hlast
              refine ⟨?_, m, ?_⟩
              · simpa [drawn, run, hp, hselect, Response.arm?] using hdrawn
              · simpa [run, hp, hselect] using hlast
      | feed action reward =>
          have harms : w.telling (w.feed p (action, reward)) rest = w.telling p rest := by
            rw [telling, hw.lawful.arms_feed, telling]
          have hwhole : w.drawn p (.feed action reward :: rest) =
              w.drawn (w.feed p (action, reward)) rest := rfl
          rw [hwhole]
          by_cases htells : (Use.feed action reward).tells (w.arms p) = true
          · have hkept : w.telling p (.feed action reward :: rest) =
                .feed action reward :: w.telling p rest := List.filter_cons_of_pos htells
            have hfed := ih (w.feed p (action, reward)) (n + 1)
            rw [harms, ← hw.feed_recount_of_tells htells] at hfed
            rw [hkept]
            exact hfed
          · have hkept : w.telling p (.feed action reward :: rest) = w.telling p rest :=
              List.filter_cons_of_neg htells
            obtain ⟨k, hcount⟩ := hw.feed_of_not_tells htells
            have hstart : recount (w.feed p (action, reward)) n = recount p n := by
              rw [hcount, hw.recount_recount]
            rw [hkept, ← harms, ← hstart]
            exact ih _ n

/-- Rewards are refused exactly for actions that are no arms. -/
theorem refusal_eq (p : P) (action : ActionId) (reward : Reward α) :
    w.refusal p action reward =
      if action.toNat < w.arms p then none else some (.outside action (w.arms p)) := by
  unfold refusal
  split_ifs with haction
  · rw [hw.lawful.update_of_lt haction]
  · rw [hw.lawful.update_of_le (Nat.le_of_not_lt haction)]

/-- A reward is counted if and only if it is accepted. -/
theorem updates_feed (p : P) (action : ActionId) (reward : Reward α) :
    (w.snapshot (w.feed p (action, reward))).updates =
      (w.snapshot p).updates + if (w.refusal p action reward).isNone then 1 else 0 := by
  rw [hw.refusal_eq]
  by_cases haction : action.toNat < w.arms p
  · rw [hw.lawful.feed_of_lt haction, hw.updates_fed]
    simp [haction]
  · rw [hw.lawful.feed_of_le (Nat.le_of_not_lt haction)]
    simp [haction]

/-- Every look at the strategy shows how many rewards were accepted until then. -/
theorem updates_seen {p : P} {uses : List (Use α)} {before after : List (Response α)}
    {s : Snapshot α} (h : (w.run p uses).1 = before ++ .seen s :: after) :
    s.updates = (w.snapshot p).updates + before.countP (·.isAccepted) := by
  induction uses generalizing p before with
  | nil => simp [run] at h
  | cons use rest ih =>
      cases before with
      | nil =>
          cases use with
          | look =>
              cases h
              rfl
          | feed action reward => cases h
          | draw =>
              simp only [run] at h
              split at h <;> cases h
      | cons response before =>
          cases use with
          | look =>
              obtain ⟨rfl, hrest⟩ := List.cons.inj h
              rw [ih hrest, List.countP_cons_of_neg (by simp [Response.isAccepted])]
          | feed action reward =>
              obtain ⟨rfl, hrest⟩ := List.cons.inj h
              rw [ih hrest, hw.updates_feed, List.countP_cons]
              rw [Nat.add_right_comm, Nat.add_assoc]
              rfl
          | draw =>
              simp only [run] at h
              split at h
              · cases h
              · next action p' hselect =>
                  obtain ⟨rfl, hrest⟩ := List.cons.inj h
                  rw [ih hrest, hw.updates_select hselect,
                    List.countP_cons_of_neg (by simp [Response.isAccepted])]

/-- A reward in a run is answered by a refusal if and only if its action is no arm. -/
theorem response_feed {p : P} {uses : List (Use α)} {i : Nat} {action : ActionId}
    {reward : Reward α} {response : Response α} (huse : uses[i]? = some (.feed action reward))
    (hresponse : (w.run p uses).1[i]? = some response) :
    response =
      .fed (if action.toNat < w.arms p then none else some (.outside action (w.arms p))) := by
  induction uses generalizing p i with
  | nil => cases huse
  | cons use rest ih =>
      cases i with
      | zero =>
          cases huse
          cases hresponse
          rw [hw.refusal_eq]
      | succ i =>
          have huse' : rest[i]? = some (.feed action reward) := huse
          cases use with
          | look => exact ih huse' hresponse
          | feed a r =>
              have h := ih (p := w.feed p (a, r)) huse' hresponse
              rwa [hw.lawful.arms_feed] at h
          | draw =>
              simp only [run] at hresponse
              split at hresponse
              · cases hresponse
              · next a p' hselect =>
                  have h := ih (p := p') huse' hresponse
                  rwa [hw.lawful.arms_select hselect] at h

end Counts

/-- What a strategy in a state, with a list of uses ahead, makes of looks and of rewards that tell
nothing: they change no draw and no part of its state but the count, which shows the accepted
rewards, and the refused ones are those for actions that are no arms. -/
structure Unperturbed (recount : P → Nat → P) (p : P) (uses : List (Use α)) : Prop where
  drawn_eq : w.drawn p (w.telling p uses) = w.drawn p uses
  state_eq : (w.run p (w.telling p uses)).2.map (recount · 0) = (w.run p uses).2.map (recount · 0)
  updates : ∀ before s after, (w.run p uses).1 = before ++ .seen s :: after →
    s.updates = (w.snapshot p).updates + before.countP (·.isAccepted)
  refused : ∀ (i : Nat) action reward response, uses[i]? = some (.feed action reward) →
    (w.run p uses).1[i]? = some response →
    response = .fed (if action.toNat < w.arms p then none else some (.outside action (w.arms p)))

theorem Counts.unperturbed {w : Watched α P} {fed : P → Nat → Reward α → P}
    {recount : P → Nat → P} (hw : w.Counts fed recount) (p : P) (uses : List (Use α)) :
    w.Unperturbed recount p uses := by
  obtain ⟨hdrawn, m, hlast⟩ := hw.run_telling p uses (w.snapshot p).updates
  rw [hw.recount_updates] at hdrawn hlast
  refine ⟨hdrawn, ?_, fun _ _ _ h => hw.updates_seen h, fun _ _ _ _ => hw.response_feed⟩
  rw [hlast, Option.map_map]
  congr 1
  funext q
  exact hw.recount_recount q m 0

end Watched

section

variable {α γ : Type} [Arith α] [Random.Drawing α γ]

namespace Exponential

/-- The strategy with a given number of accepted rewards. -/
def recount (p : Exponential α γ) (n : Nat) : Exponential α γ := { p with updates := n }

/-- The runs of the strategy with looks at it. -/
def watched : Watched α (Exponential α γ) := ⟨moves, snapshot⟩

theorem counts : (watched : Watched α (Exponential α γ)).Counts fed recount where
  lawful := lawful
  arms_recount _ _ := rfl
  recount_recount _ _ _ := rfl
  select_recount p n := by
    simp only [watched, moves, select, Option.map_map]
    rfl
  fed_recount p n arm r := by
    cases h : r.neutral <;> simp [fed, h, recount, gain, estimate, chance, floor, normalize,
      bounded, arms]
  fed_neutral p arm r h := by simp [fed, h, recount, watched, snapshot]
  recount_updates _ := rfl
  updates_fed p arm r := by cases h : r.neutral <;> simp [fed, h, watched, snapshot]
  updates_select h := by
    obtain ⟨drawn, -, heq⟩ := Option.map_eq_some_iff.mp h
    cases heq
    rfl

end Exponential

namespace Greedy

/-- The strategy with a given number of accepted rewards. -/
def recount (p : Greedy α γ) (n : Nat) : Greedy α γ := { p with updates := n }

/-- The runs of the strategy with looks at it. -/
def watched : Watched α (Greedy α γ) := ⟨moves, snapshot⟩

theorem counts : (watched : Watched α (Greedy α γ)).Counts fed recount where
  lawful := lawful
  arms_recount _ _ := rfl
  recount_recount _ _ _ := rfl
  select_recount p n := by
    have hpick : (p.recount n).pick = p.pick := rfl
    simp only [watched, moves, select_eq, hpick, Option.map_map]
    rfl
  fed_recount p n arm r := by cases h : r.neutral <;> simp [fed, h, recount]
  fed_neutral p arm r h := by simp [fed, h, recount, watched, snapshot]
  recount_updates _ := rfl
  updates_fed p arm r := by cases h : r.neutral <;> simp [fed, h, watched, snapshot]
  updates_select h := by
    obtain ⟨drawn, -, heq⟩ := Option.map_eq_some_iff.mp ((select_eq _).symm.trans h)
    cases heq
    rfl

end Greedy

namespace Policy

/-- The policy with a given number of accepted rewards. -/
def recount : Policy α γ → Nat → Policy α γ
  | .exponential p, n => .exponential (p.recount n)
  | .greedy p, n => .greedy (p.recount n)

/-- The runs of a policy with looks at it. -/
def watched : Watched α (Policy α γ) := ⟨moves, snapshot⟩

theorem counts : (watched : Watched α (Policy α γ)).Counts fed recount where
  lawful := lawful
  arms_recount := by rintro (p | p) n <;> rfl
  recount_recount := by rintro (p | p) m n <;> rfl
  select_recount := by
    rintro (p | p) n
    · have h := Exponential.counts.select_recount p n
      simp only [Exponential.watched, Exponential.moves] at h
      simp only [watched, moves, select, recount, h, Option.map_map]
      rfl
    · have h := Greedy.counts.select_recount p n
      simp only [Greedy.watched, Greedy.moves] at h
      simp only [watched, moves, select, recount, h, Option.map_map]
      rfl
  fed_recount := by
    rintro (p | p) n arm r
    · exact congrArg exponential (Exponential.counts.fed_recount p n arm r)
    · exact congrArg greedy (Greedy.counts.fed_recount p n arm r)
  fed_neutral := by
    rintro (p | p) arm r h
    · exact congrArg exponential (Exponential.counts.fed_neutral p arm h)
    · exact congrArg greedy (Greedy.counts.fed_neutral p arm h)
  recount_updates := by rintro (p | p) <;> rfl
  updates_fed := by
    rintro (p | p) arm r
    · exact Exponential.counts.updates_fed p arm r
    · exact Greedy.counts.updates_fed p arm r
  updates_select := by
    rintro (p | p) a p' h
    · obtain ⟨drawn, hdrawn, heq⟩ := Option.map_eq_some_iff.mp h
      cases heq
      exact Exponential.counts.updates_select hdrawn
    · obtain ⟨drawn, hdrawn, heq⟩ := Option.map_eq_some_iff.mp h
      cases heq
      exact Greedy.counts.updates_select hdrawn

omit [Random.Drawing α γ] in
/-- A new policy has accepted no reward. -/
theorem updates_create {arms : Nat} {strategy : Strategy α} {weights : Weights α} {source : γ}
    {p : Policy α γ} (h : create arms strategy weights source = .ok p) :
    p.snapshot.updates = 0 := by
  rw [create_eq_ok_iff] at h
  cases strategy with
  | exponential gamma low high =>
      obtain ⟨q, hq, rfl⟩ := h
      obtain ⟨-, -, -, -, rfl⟩ := Exponential.create_eq_ok_iff.mp hq
      rfl
  | greedy epsilon step =>
      obtain ⟨q, hq, rfl⟩ := h
      obtain ⟨-, -, -, rfl⟩ := Greedy.create_eq_ok_iff.mp hq
      rfl

end Policy

end

/-- Looks, neutral rewards and refused rewards can be left out of every run of either strategy, and
so of a policy, from every state: the same arms are drawn and everything but the count of rewards is
left as it would be. The count, which is zero in a new policy, is that of the accepted rewards, and
a reward is refused if and only if its action is no arm. -/
theorem uninformative_uses_change_nothing {α γ : Type} [Arith α] [Random.Drawing α γ] :
    (∀ (p : Exponential α γ) uses,
      Exponential.watched.Unperturbed Exponential.recount p uses) ∧
    (∀ (p : Greedy α γ) uses, Greedy.watched.Unperturbed Greedy.recount p uses) ∧
    (∀ (p : Policy α γ) uses, Policy.watched.Unperturbed Policy.recount p uses) ∧
    ∀ arms strategy weights source (p : Policy α γ),
      Policy.create arms strategy weights source = .ok p → p.snapshot.updates = 0 := by
  refine ⟨?_, ?_, ?_, ?_⟩
  · intro p uses
    exact Exponential.counts.unperturbed p uses
  · intro p uses
    exact Greedy.counts.unperturbed p uses
  · intro p uses
    exact Policy.counts.unperturbed p uses
  · intro arms strategy weights source p h
    exact Policy.updates_create h

section

/-- Four arms over doubles, of which nothing is known. -/
private def fourArms : Greedy Float Random.Gen := .initial 4 0.1 none .standard (.ofSeed 3)

/-- One telling reward between two draws, a reward for no arm, a neutral one and two looks. -/
private def watchedRun : List (Use Float) :=
  [.draw, .feed (.ofNat 9) (.ofValue 1.0), .look, .feed (.ofNat 1) .uninformative,
    .feed (.ofNat 2) (.ofValue 0.5), .draw, .look]

theorem uninformative_uses_change_nothing_watchedRun :
    Policy.create 4 (.greedy 0.1 none) .standard (Random.Gen.ofSeed 3) = .ok (.greedy fourArms) ∧
      (Policy.greedy fourArms).snapshot.updates = 0 ∧
      Greedy.watched.telling fourArms watchedRun =
        [.draw, .feed (.ofNat 2) (.ofValue 0.5), .draw] ∧
      Greedy.watched.drawn fourArms [.draw, .feed (.ofNat 2) (.ofValue 0.5), .draw] =
        Greedy.watched.drawn fourArms watchedRun := by
  have hcreate : Policy.create 4 (.greedy 0.1 none) .standard (Random.Gen.ofSeed 3) =
      .ok (.greedy fourArms) := rfl
  have htelling : Greedy.watched.telling fourArms watchedRun =
      [.draw, .feed (.ofNat 2) (.ofValue 0.5), .draw] := rfl
  have hrun := uninformative_uses_change_nothing.2.1 fourArms watchedRun
  refine ⟨hcreate, ?_, htelling, htelling ▸ hrun.drawn_eq⟩
  exact uninformative_uses_change_nothing.2.2.2 _ _ _ _ _ hcreate

end

end LinkTuner

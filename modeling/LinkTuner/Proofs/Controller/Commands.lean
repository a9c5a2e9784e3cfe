import LinkTuner.Controller.Owner
import LinkTuner.Proofs.Policy.Thinning

/-!
# Commands to the owner of a policy

Anyone who knows the owner of a policy can send it commands. They wait in a queue, and the owner
takes them from it one after another until it stops. Main statement: whatever is sent, and whenever
the owner finds time, the commands are answered in the order in which they were sent, each as the
policy by itself would answer it after all the commands before it; once the owner was told to stop,
every command is answered that there is no policy, and nothing changes any more.
-/

namespace LinkTuner

/-- The runs of a policy that nobody owns. -/
def Learner.alone {P : Type} [Learner P] : Watched Float P :=
  ⟨⟨Learner.arms, Learner.select, Learner.update⟩, Learner.snapshot⟩

/-- A run goes on from the state in which its first part ends. -/
theorem Watched.last_run_append {α P : Type} (w : Watched α P) (p : P) (xs ys : List (Use α)) :
    (w.run p (xs ++ ys)).2 = (w.run p xs).2.bind fun q => (w.run q ys).2 := by
  induction xs generalizing p with
  | nil => rfl
  | cons use rest ih =>
      cases use with
      | look => exact ih p
      | feed action reward => exact ih (w.feed p (action, reward))
      | draw =>
          simp only [List.cons_append, run]
          cases w.select p with
          | none => rfl
          | some d => exact ih d.2

namespace Owner

/-! ## Commands and their answers -/

/-- What an owner can be asked for. -/
inductive Command where
  | step (update : Option (ActionId × Reward Float))
  | snapshot
  | shutdown

namespace Command

def isShutdown : Command → Bool
  | .shutdown => true
  | _ => false

/-- What a command makes of the policy. -/
def uses : Command → List (Use Float)
  | .step none => [.draw]
  | .step (some (action, reward)) => [.feed action reward, .draw]
  | .snapshot => [.look]
  | .shutdown => [.look]

end Command

/-- How a command is answered. -/
inductive Reply where
  | drawn (result : Drawn)
  | seen (snapshot : Snapshot Float)
  | unavailable

namespace Reply

/-- The answer that the responses of a policy make. A step whose draw failed has none. -/
def ofResponses : List (Response Float) → Reply
  | [.drawn action] => .drawn ⟨action, none⟩
  | [.fed refused, .drawn action] => .drawn ⟨action, refused⟩
  | [.seen s] => .seen s
  | _ => .unavailable

/-- The answer to a step whose update was refused besides. -/
def refusing (fault : ActionFault) : Reply → Reply
  | .drawn result => .drawn { result with refused := some fault }
  | reply => reply

end Reply

/-- Whether a command was answered by saying that its update was accepted. -/
def accepted : Command × Reply → Bool
  | (.step (some _), .drawn result) => result.refused.isNone
  | _ => false

variable {P : Type} [Learner P]

/-- Carrying out one command. -/
def serve (o : Owner P) : Command → Reply × Owner P
  | .step update => ((o.step update).1.elim .unavailable .drawn, (o.step update).2)
  | .snapshot => (o.snapshot.elim .unavailable .seen, o)
  | .shutdown => (o.shutdown.1.elim .unavailable .seen, o.shutdown.2)

/-- The policy after it carried out commands by itself, unless a draw failed. -/
def after (p : P) (commands : List Command) : Option P :=
  (Learner.alone.run p (commands.flatMap Command.uses)).2

/-- How the policy by itself answers a command. -/
def answer (p : P) (command : Command) : Reply :=
  .ofResponses (Learner.alone.run p command.uses).1

/-- The answer to a command that comes after others: that of the policy as these left it, until it
is told to stop or cannot draw. -/
def answerAfter (p : P) (earlier : List Command) (command : Command) : Reply :=
  if earlier.any Command.isShutdown then .unavailable
  else (after p earlier).elim .unavailable fun q => answer q command

theorem after_append (p : P) (xs ys : List Command) :
    after p (xs ++ ys) = (after p xs).bind fun q => after q ys := by
  simp only [after, List.flatMap_append]
  exact Watched.last_run_append _ p _ _

/-! ## One command -/

theorem feed_eq (p : P) (action : ActionId) (reward : Reward Float) :
    feed p (some (action, reward)) =
      (Learner.alone.refusal p action reward, Learner.alone.feed p (action, reward)) := by
  simp only [feed, Watched.refusal, Moves.feed, Learner.alone]
  cases Learner.update p action reward <;> rfl

theorem serve_of_not_serving {o : Owner P} (h : o.serving = false) (command : Command) :
    o.serve command = (.unavailable, o) := by
  obtain ⟨p, serving⟩ := o
  subst h
  cases command <;> rfl

theorem select_alone (p : P) : Learner.alone.select p = Learner.select p := rfl

theorem answer_step (p : P) (update : Option (ActionId × Reward Float)) :
    answer p (.step update) =
      (Learner.select (feed p update).2).elim .unavailable fun d =>
        .drawn ⟨d.1, (feed p update).1⟩ := by
  cases update with
  | none =>
      simp only [answer, Command.uses, Watched.run, select_alone, feed]
      cases Learner.select p <;> rfl
  | some fed =>
      obtain ⟨action, reward⟩ := fed
      simp only [answer, Command.uses, Watched.run, select_alone, feed_eq]
      cases Learner.select (Learner.alone.feed p (action, reward)) <;> rfl

theorem after_step (p : P) (update : Option (ActionId × Reward Float)) :
    after p [.step update] = (Learner.select (feed p update).2).map (·.2) := by
  cases update with
  | none =>
      simp only [after, List.flatMap_singleton, Command.uses, Watched.run, select_alone, feed]
      cases Learner.select p <;> rfl
  | some fed =>
      obtain ⟨action, reward⟩ := fed
      simp only [after, List.flatMap_singleton, Command.uses, Watched.run, select_alone, feed_eq]
      cases Learner.select (Learner.alone.feed p (action, reward)) <;> rfl

/-- An owner that is served answers a command as the policy by itself does. -/
theorem reply_serve (p : P) (command : Command) :
    ((create p).serve command).1 = answer p command := by
  cases command with
  | snapshot => rfl
  | shutdown => rfl
  | step update =>
      rw [answer_step]
      simp only [serve, step, create, if_true]
      cases Learner.select (feed p update).2 <;> rfl

/-- After a command that the policy carries out, the owner holds what the policy became, and is
served until it is told to stop. -/
theorem owner_serve_of_after {p q : P} {command : Command} (h : after p [command] = some q) :
    ((create p).serve command).2 = ⟨q, !command.isShutdown⟩ := by
  cases command with
  | snapshot =>
      cases h
      rfl
  | shutdown =>
      cases h
      rfl
  | step update =>
      rw [after_step, Option.map_eq_some_iff] at h
      obtain ⟨d, hselect, rfl⟩ := h
      simp [serve, step, create, hselect, Command.isShutdown]

/-- A draw that fails stops the owner. -/
theorem serving_serve_of_after {p : P} {command : Command} (h : after p [command] = none) :
    ((create p).serve command).2.serving = false := by
  cases command with
  | snapshot => cases h
  | shutdown => cases h
  | step update =>
      rw [after_step, Option.map_eq_none_iff] at h
      simp [serve, step, create, h]

/-- A refused update is reported and otherwise as good as none: the same draw is made, and it leaves
the same policy. -/
theorem refused_step {p : P} {action : ActionId} {reward : Reward Float} {fault : ActionFault}
    (h : Learner.update p action reward = .error fault) :
    answer p (.step (some (action, reward))) = (answer p (.step none)).refusing fault ∧
      after p [.step (some (action, reward))] = after p [.step none] := by
  have hfeed : feed p (some (action, reward)) = (some fault, p) := by simp [feed, h]
  rw [answer_step, after_step, hfeed, answer_step, after_step]
  refine ⟨?_, rfl⟩
  simp only [feed]
  cases Learner.select p <;> rfl

/-! ## Many commands -/

/-- An owner that carried out some commands holds what the policy became by them, unless it was told
to stop or a draw failed. -/
structure Follows (p : P) (earlier : List Command) (o : Owner P) : Prop where
  serving_iff : o.serving = true ↔
    earlier.any Command.isShutdown = false ∧ (after p earlier).isSome = true
  policy : o.serving = true → after p earlier = some o.policy

theorem follows_create (p : P) : Follows p [] (create p) where
  serving_iff := by simp [create, after, Watched.run]
  policy _ := rfl

namespace Follows

variable {p : P} {earlier : List Command} {o : Owner P}

theorem answerAfter_of_serving (h : Follows p earlier o) (hserving : o.serving = true)
    (command : Command) : answerAfter p earlier command = answer o.policy command := by
  obtain ⟨hopen, -⟩ := h.serving_iff.mp hserving
  simp [answerAfter, hopen, h.policy hserving]

theorem answerAfter_of_not_serving (h : Follows p earlier o) (hserving : o.serving = false)
    (command : Command) : answerAfter p earlier command = .unavailable := by
  unfold answerAfter
  split_ifs with hopen
  · rfl
  · cases hafter : after p earlier with
    | none => rfl
    | some q =>
        have hstill := h.serving_iff.mpr ⟨Bool.eq_false_iff.mpr hopen, by simp [hafter]⟩
        rw [hserving] at hstill
        cases hstill

/-- One more command is answered as the policy answers it after the earlier ones. -/
theorem reply_serve (h : Follows p earlier o) (command : Command) :
    (o.serve command).1 = answerAfter p earlier command := by
  obtain ⟨q, serving⟩ := o
  cases serving with
  | false => rw [serve_of_not_serving rfl, h.answerAfter_of_not_serving rfl]
  | true =>
      rw [h.answerAfter_of_serving rfl]
      exact Owner.reply_serve q command

theorem serve (h : Follows p earlier o) (command : Command) :
    Follows p (earlier ++ [command]) (o.serve command).2 := by
  obtain ⟨q, serving⟩ := o
  cases serving with
  | false =>
      rw [serve_of_not_serving rfl]
      have hstopped : ¬(earlier.any Command.isShutdown = false ∧ (after p earlier).isSome = true) :=
        mt h.serving_iff.mpr Bool.false_ne_true
      constructor
      · refine ⟨fun hserving => absurd hserving Bool.false_ne_true, ?_⟩
        rintro ⟨hopen, hafter⟩
        rw [List.any_append, Bool.or_eq_false_iff] at hopen
        rw [after_append] at hafter
        exact absurd ⟨hopen.1, Option.isSome_of_isSome_bind hafter⟩ hstopped
      · exact fun hserving => absurd hserving Bool.false_ne_true
  | true =>
      obtain ⟨hopen, -⟩ := h.serving_iff.mp rfl
      have hafter : after p (earlier ++ [command]) = after q [command] := by
        rw [after_append, h.policy rfl, Option.bind_some]
      cases hq : after q [command] with
      | none =>
          have hstopped := serving_serve_of_after hq
          have heq : (create q).serve command = Owner.serve ⟨q, true⟩ command := rfl
          rw [heq] at hstopped
          constructor
          · simp [hstopped, hafter, hq]
          · simp [hstopped]
      | some q' =>
          have howner : (Owner.serve ⟨q, true⟩ command).2 = ⟨q', !command.isShutdown⟩ :=
            owner_serve_of_after hq
          rw [howner]
          constructor
          · simp [hopen, hafter, hq]
          · exact fun _ => hafter.trans hq

end Follows

end Owner

/-! ## The queue -/

open Owner

/-- An owner with the commands that it was sent and has not yet taken, and the others with their
answers, both in the order in which they were sent. -/
structure Mailbox (P : Type) where
  owner : Owner P
  queue : List Command
  done : List (Command × Reply)

/-- What can happen to a mailbox. -/
inductive Mailbox.Act where
  | send (command : Command)
  /-- The owner takes the next command. A stopped owner turns it down. -/
  | turn

namespace Mailbox

variable {P : Type}

/-- A mailbox to which nothing was sent yet. -/
def create (p : P) : Mailbox P := ⟨.create p, [], []⟩

variable [Learner P]

def step (m : Mailbox P) : Act → Mailbox P
  | .send command => { m with queue := m.queue ++ [command] }
  | .turn =>
    match m.queue with
    | [] => m
    | command :: rest =>
      ⟨(m.owner.serve command).2, rest, m.done ++ [(command, (m.owner.serve command).1)]⟩

/-- The mailbox after many acts. -/
def run (m : Mailbox P) (acts : List Act) : Mailbox P := acts.foldl step m

/-- The commands that are sent. -/
def sent (acts : List Act) : List Command :=
  acts.filterMap fun
    | .send command => some command
    | .turn => none

/-- What every run of a mailbox keeps: no command is lost, repeated or overtaken, the owner holds
what the policy became by the commands that were answered, and each of them was answered as the
policy answers it after those before it. -/
structure InOrder (p : P) (commands : List Command) (m : Mailbox P) : Prop where
  commands_eq : m.done.map Prod.fst ++ m.queue = commands
  follows : Follows p (m.done.map Prod.fst) m.owner
  answered : ∀ before command reply later, m.done = before ++ (command, reply) :: later →
    reply = answerAfter p (before.map Prod.fst) command

theorem inOrder_create (p : P) : InOrder p [] (create p) where
  commands_eq := rfl
  follows := follows_create p
  answered before command reply later h := by simp [create] at h

/-- An entry of a list with one more entry at its end is an old entry or that one. -/
theorem eq_append_cons_concat {β : Type} {bs before later : List β} {b c : β}
    (h : bs ++ [c] = before ++ b :: later) :
    (∃ later', bs = before ++ b :: later') ∨ before = bs ∧ b = c := by
  rcases List.append_eq_append_iff.mp h with ⟨as, hbefore, hlast⟩ | ⟨as, hbs, hlater⟩
  · cases as with
    | nil => exact .inr ⟨by simpa using hbefore, (List.cons.inj hlast).1.symm⟩
    | cons a as => simp at hlast
  · cases as with
    | nil => exact .inr ⟨by simpa using hbs.symm, (List.cons.inj hlater).1⟩
    | cons a as =>
        obtain ⟨rfl, -⟩ := List.cons.inj hlater
        exact .inl ⟨as, hbs⟩

theorem InOrder.step {p : P} {commands : List Command} {m : Mailbox P} (h : InOrder p commands m)
    (act : Act) : InOrder p (commands ++ sent [act]) (m.step act) := by
  obtain ⟨o, queue, done⟩ := m
  cases act with
  | send command =>
      refine ⟨?_, h.follows, h.answered⟩
      rw [← h.commands_eq, List.append_assoc]
      rfl
  | turn =>
      have hcommands : commands ++ sent [.turn] = commands := List.append_nil commands
      rw [hcommands]
      cases queue with
      | nil => exact h
      | cons command rest =>
          have hdone : (done ++ [(command, (o.serve command).1)]).map Prod.fst =
              done.map Prod.fst ++ [command] := by simp
          constructor
          · rw [← h.commands_eq]
            simp [Mailbox.step]
          · simp only [Mailbox.step, hdone]
            exact h.follows.serve command
          · intro before command' reply later heq
            rcases eq_append_cons_concat heq with ⟨later', hold⟩ | ⟨rfl, hnew⟩
            · exact h.answered before command' reply later' hold
            · cases hnew
              exact h.follows.reply_serve command

theorem InOrder.run {p : P} {commands : List Command} {m : Mailbox P} (h : InOrder p commands m)
    (acts : List Act) : InOrder p (commands ++ sent acts) (m.run acts) := by
  induction acts generalizing commands m with
  | nil => simpa [sent, Mailbox.run] using h
  | cons act rest ih =>
      have hsent : commands ++ sent (act :: rest) = commands ++ sent [act] ++ sent rest := by
        rw [List.append_assoc, sent, sent, sent, ← List.filterMap_append, List.singleton_append]
      rw [hsent]
      exact ih (h.step act)

/-- A stopped owner stays as it is. -/
theorem owner_run_of_not_serving {m : Mailbox P} (h : m.owner.serving = false) (acts : List Act) :
    (m.run acts).owner = m.owner := by
  induction acts generalizing m with
  | nil => rfl
  | cons act rest ih =>
      have hstep : (m.step act).owner = m.owner := by
        obtain ⟨o, queue, done⟩ := m
        cases act with
        | send command => rfl
        | turn =>
            cases queue with
            | nil => rfl
            | cons command queue => exact congrArg Prod.snd (serve_of_not_serving h command)
      have hrest := ih (m := m.step act) (by rwa [hstep])
      exact hrest.trans hstep

/-- As many turns as there are commands in the queue answer all of them. -/
theorem queue_run_turns (m : Mailbox P) :
    (m.run (List.replicate m.queue.length .turn)).queue = [] := by
  obtain ⟨o, queue, done⟩ := m
  induction queue generalizing o done with
  | nil => rfl
  | cons command rest ih => exact ih _ _

end Mailbox

/-! ## Accepted updates -/

section

variable {γ : Type} [Random.Drawing Float γ]

/-- One command adds one to the accepted updates of a policy if it is answered so, and otherwise
nothing. -/
theorem Owner.updates_after {p q : Policy Float γ} {command : Command}
    (h : after p [command] = some q) :
    q.snapshot.updates =
      p.snapshot.updates + if accepted (command, answer p command) then 1 else 0 := by
  have hcounts := Policy.counts (α := Float) (γ := γ)
  cases command with
  | snapshot =>
      cases h
      rfl
  | shutdown =>
      cases h
      rfl
  | step update =>
      rw [after_step, Option.map_eq_some_iff] at h
      obtain ⟨⟨action, q⟩, hselect, rfl⟩ := h
      have hdrawn := hcounts.updates_select hselect
      rw [answer_step, hselect]
      cases update with
      | none => exact hdrawn
      | some fed =>
          rw [feed_eq] at hdrawn ⊢
          exact hdrawn.trans (hcounts.updates_feed p fed.1 fed.2)

/-- What a policy shows is its own state. -/
theorem Owner.eq_of_answer_seen {P : Type} [Learner P] {p : P} {command : Command}
    {s : Snapshot Float} (h : answer p command = .seen s) : s = Learner.snapshot p := by
  cases command with
  | snapshot =>
      cases h
      rfl
  | shutdown =>
      cases h
      rfl
  | step update =>
      rw [answer_step] at h
      cases hselect : Learner.select (feed p update).2 <;> simp [hselect] at h

namespace Mailbox

/-- Every state of the policy that was shown counts the updates that were accepted before. -/
structure Counted (p : Policy Float γ) (m : Mailbox (Policy Float γ)) : Prop where
  owner : m.owner.serving = true →
    m.owner.policy.snapshot.updates = p.snapshot.updates + m.done.countP accepted
  seen : ∀ before command s later, m.done = before ++ (command, .seen s) :: later →
    s.updates = p.snapshot.updates + before.countP accepted

omit [Random.Drawing Float γ] in
theorem counted_create (p : Policy Float γ) : Counted p (create p) where
  owner _ := rfl
  seen before command s later h := by simp [create] at h

theorem Counted.step {p : Policy Float γ} {m : Mailbox (Policy Float γ)} (h : Counted p m)
    (act : Act) : Counted p (m.step act) := by
  obtain ⟨⟨q, serving⟩, queue, done⟩ := m
  cases act with
  | send command => exact ⟨h.owner, h.seen⟩
  | turn =>
      cases queue with
      | nil => exact h
      | cons command rest =>
          cases serving with
          | false =>
              simp only [Mailbox.step, serve_of_not_serving]
              refine ⟨fun hserving => absurd hserving Bool.false_ne_true, ?_⟩
              intro before command' s later heq
              rcases eq_append_cons_concat heq with ⟨later', hold⟩ | ⟨-, hnew⟩
              · exact h.seen before command' s later' hold
              · cases hnew
          | true =>
              have hcount := h.owner rfl
              have hreply : (Owner.serve ⟨q, true⟩ command).1 = answer q command :=
                reply_serve q command
              constructor
              · intro hserving
                cases hafter : after q [command] with
                | none =>
                    have hstopped := serving_serve_of_after hafter
                    exact absurd (hstopped.symm.trans hserving) Bool.false_ne_true
                | some q' =>
                    have howner : (Owner.serve ⟨q, true⟩ command).2 = ⟨q', !command.isShutdown⟩ :=
                      owner_serve_of_after hafter
                    simp only [Mailbox.step, howner, hreply, updates_after hafter, hcount,
                      List.countP_append, List.countP_singleton, Nat.add_assoc]
              · intro before command' s later heq
                rcases eq_append_cons_concat heq with ⟨later', hold⟩ | ⟨rfl, hnew⟩
                · exact h.seen before command' s later' hold
                · obtain ⟨rfl, hs⟩ := Prod.mk.inj hnew
                  rw [eq_of_answer_seen (hreply.symm.trans hs.symm)]
                  exact hcount

theorem Counted.run {p : Policy Float γ} {m : Mailbox (Policy Float γ)} (h : Counted p m)
    (acts : List Act) : Counted p (m.run acts) := by
  induction acts generalizing m with
  | nil => exact h
  | cons act rest ih => exact ih (h.step act)

/-- A mailbox after some acts that serves a policy as it runs by itself. -/
structure Faithful (p : Policy Float γ) (acts : List Act) (m : Mailbox (Policy Float γ)) :
    Prop where
  in_order : InOrder p (sent acts) m
  counted : Counted p m
  stopped : m.owner.serving = false → ∀ more, (m.run more).owner = m.owner
  drained : (m.run (List.replicate m.queue.length .turn)).queue = []

end Mailbox

/-- Whatever an owner of a policy is sent, and whenever it takes its turns, it serves the policy as
that runs by itself; a refused update is reported and otherwise as good as none; and the updates
that a new policy shows are those accepted since. -/
theorem owner_serves_as_policy_alone (p : Policy Float γ) (acts : List Mailbox.Act) :
    ((Mailbox.create p).run acts).Faithful p acts ∧
      (∀ (q : Policy Float γ) action reward fault, q.update action reward = .error fault →
        answer q (.step (some (action, reward))) = (answer q (.step none)).refusing fault ∧
          after q [.step (some (action, reward))] = after q [.step none]) ∧
      ∀ arms strategy weights source, Policy.create arms strategy weights source = .ok p →
        p.snapshot.updates = 0 := by
  refine ⟨⟨?_, ?_, ?_, ?_⟩, ?_, ?_⟩
  · exact (Mailbox.inOrder_create p).run acts
  · exact (Mailbox.counted_create p).run acts
  · exact fun hstopped more => Mailbox.owner_run_of_not_serving hstopped more
  · exact Mailbox.queue_run_turns _
  · intro q action reward fault hrefused
    exact refused_step hrefused
  · intro arms strategy weights source hcreate
    exact Policy.updates_create hcreate

end

section

/-- Three arms over doubles, of which nothing is known. -/
private def untaughtPolicy : Policy Float Random.Gen :=
  .greedy (.initial 3 0.1 none .standard (.ofSeed 11))

/-- A reward for no arm, a look after the owner was told to stop, and all three answered. -/
private def actsWithShutdown : List Mailbox.Act :=
  [.send (.step (some (.ofNat 9, .ofValue 1.0))), .send .shutdown, .turn, .send .snapshot, .turn,
    .turn]

theorem owner_serves_as_policy_alone_actsWithShutdown :
    Policy.create 3 (.greedy 0.1 none) .standard (Random.Gen.ofSeed 11) = .ok untaughtPolicy ∧
      untaughtPolicy.snapshot.updates = 0 ∧
      untaughtPolicy.update (.ofNat 9) (.ofValue 1.0) = .error (.outside (.ofNat 9) 3) ∧
      answer untaughtPolicy (.step (some (.ofNat 9, .ofValue 1.0))) =
        (answer untaughtPolicy (.step none)).refusing (.outside (.ofNat 9) 3) ∧
      ((Mailbox.create untaughtPolicy).run actsWithShutdown).owner.serving = false ∧
      ((Mailbox.create untaughtPolicy).run actsWithShutdown).Faithful untaughtPolicy
        actsWithShutdown := by
  have hcreate : Policy.create 3 (.greedy 0.1 none) .standard (Random.Gen.ofSeed 11) =
      .ok untaughtPolicy := rfl
  have hrefused : untaughtPolicy.update (.ofNat 9) (.ofValue 1.0) =
      .error (.outside (.ofNat 9) 3) := rfl
  obtain ⟨hfaithful, hupdate, hnew⟩ :=
    owner_serves_as_policy_alone untaughtPolicy actsWithShutdown
  refine ⟨hcreate, hnew _ _ _ _ hcreate, hrefused, ?_, by decide +kernel, hfaithful⟩
  exact (hupdate _ _ _ _ hrefused).1

end

end LinkTuner

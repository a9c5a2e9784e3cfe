import LinkTuner.Reward
import LinkTuner.Policy.Learner

/-!
# Counters and the history of rewards
-/

namespace LinkTuner

/-- What a controller counts. -/
structure Counters where
  sessionsOpened : Nat
  sessionsActive : Nat
  observations : Nat
  /-- Decisions that the policy made in time. -/
  decisions : Nat
  /-- Requests that were answered with the fallback. -/
  timeouts : Nat
  duplicates : Nat
  malformed : Nat
  invalidOutcomes : Nat
  invalidActions : Nat
  rejections : Nat
  deriving DecidableEq, Repr

namespace Counters

/-- The counters at the start. -/
def zero : Counters := ⟨0, 0, 0, 0, 0, 0, 0, 0, 0, 0⟩

/-- The counters by name, in their order. -/
def named (c : Counters) : List (String × Nat) :=
  [("sessions_opened", c.sessionsOpened), ("sessions_active", c.sessionsActive),
    ("observations", c.observations), ("decisions", c.decisions), ("timeouts", c.timeouts),
    ("duplicates", c.duplicates), ("malformed", c.malformed),
    ("invalid_outcomes", c.invalidOutcomes), ("invalid_actions", c.invalidActions),
    ("registry_rejections", c.rejections)]

/-- The counters with more of what has a given name; a name of nothing adds nothing. -/
def add (c : Counters) (name : String) (n : Nat) : Counters :=
  match name with
  | "sessions_opened" => { c with sessionsOpened := c.sessionsOpened + n }
  | "sessions_active" => { c with sessionsActive := c.sessionsActive + n }
  | "observations" => { c with observations := c.observations + n }
  | "decisions" => { c with decisions := c.decisions + n }
  | "timeouts" => { c with timeouts := c.timeouts + n }
  | "duplicates" => { c with duplicates := c.duplicates + n }
  | "malformed" => { c with malformed := c.malformed + n }
  | "invalid_outcomes" => { c with invalidOutcomes := c.invalidOutcomes + n }
  | "invalid_actions" => { c with invalidActions := c.invalidActions + n }
  | "registry_rejections" => { c with rejections := c.rejections + n }
  | _ => c

/-- The share of answered requests that fell back. -/
def timeoutRate (c : Counters) : Float :=
  let answered := c.decisions + c.timeouts
  if answered = 0 then 0.0 else Float.ofNat c.timeouts / Float.ofNat answered

end Counters

/-- The latest rewards, the oldest first, no more of them than the capacity. -/
structure History where
  capacity : Nat
  samples : List (Sample Float)
  deriving Repr

namespace History

/-- The history of no reward. -/
def create (capacity : Nat) : History := ⟨capacity, []⟩

/-- The history with one more reward; the oldest makes room for it. -/
def push (h : History) (s : Sample Float) : History :=
  if h.capacity = 0 then h
  else if h.samples.length = h.capacity then { h with samples := h.samples.drop 1 ++ [s] }
  else { h with samples := h.samples ++ [s] }

/-- The mean of the rewards that are kept. -/
def mean (h : History) : Option Float :=
  if h.samples.isEmpty then none
  else some (Arith.sum (h.samples.map (·.reward.value)) / Float.ofNat h.samples.length)

end History

end LinkTuner

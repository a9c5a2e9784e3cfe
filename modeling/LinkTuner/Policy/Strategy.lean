import LinkTuner.Reward

/-!
# Strategies and their parameters
-/

namespace LinkTuner

/-- Which strategy learns, and with what parameters. -/
inductive Strategy (α : Type) where
  /-- Exponential weights with a share of uniform draws; the bounds are those of the reward. -/
  | exponential (gamma : α) (low high : Option α)
  /-- The best estimate but for a share of uniform draws. Without a step the estimates are means. -/
  | greedy (epsilon : α) (step : Option α)
  deriving Repr

/-- The name of a strategy. -/
def Strategy.name {α : Type} : Strategy α → String
  | .exponential .. => "exp3"
  | .greedy .. => "epsilon-greedy"

/-- The strategy used where nothing else is said. -/
def Strategy.standard : Strategy Float := .exponential 0.1 none none

/-- Why parameters are refused. -/
inductive StrategyFault (α : Type) where
  | noArms (owner : String)
  | gamma (value : α)
  | bounds (low high : α)
  | epsilon (value : α)
  | step (value : α)
  deriving Repr

/-- The wording of a refusal. -/
def StrategyFault.message : StrategyFault Float → String
  | .noArms owner => owner ++ " needs at least one arm"
  | .gamma value => "exp3 gamma must lie in (0, 1], got " ++ Decimal.text value
  | .bounds low high =>
    "exp3 reward bounds must satisfy min < max, got [" ++ Decimal.text low ++ ", " ++
      Decimal.text high ++ "]"
  | .epsilon value => "epsilon must lie in [0, 1], got " ++ Decimal.text value
  | .step value => "step size must lie in (0, 1], got " ++ Decimal.text value

end LinkTuner

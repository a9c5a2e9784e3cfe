import LinkTuner.Policy.Basic
import LinkTuner.Text.Span

/-!
# The configuration of a controller

A configuration is checked as a whole before a controller is built from it. `check` finds the first
of the faults that would otherwise show when the controller is built, and refuses a deadline of
nothing.
-/

namespace LinkTuner

/-- All that a controller is told. -/
structure Config where
  listenAddress : String
  factors : List UInt8
  powers : List Int8
  /-- The number of actions that the options are expected to give. -/
  arms : Option UInt64
  /-- How long a decision may take, in milliseconds. -/
  timeout : UInt64
  maxDevices : UInt64
  /-- The number of rewards that are kept for diagnosis. -/
  historyLength : UInt64
  /-- The seconds between two lines of status; none are written when this is zero. -/
  statusInterval : UInt64
  seed : Option UInt64
  logLevel : String
  weights : Weights Float
  strategy : Strategy Float
  deriving Repr

/-- What holds where nothing is said. -/
def Config.standard : Config where
  listenAddress := "127.0.0.1:7654"
  factors := Catalog.defaultFactors
  powers := Catalog.defaultPowers
  arms := none
  timeout := 250
  maxDevices := 4096
  historyLength := 256
  statusInterval := 15
  seed := none
  logLevel := "info"
  weights := .standard
  strategy := .standard

/-- Why a controller does not start. -/
inductive StartFault where
  | catalog (cause : CatalogFault)
  | armCount (configured : Nat) (factors powers arms : Nat)
  | weights (cause : WeightsFault Float)
  | noTime
  | noDevices
  | strategy (cause : StrategyFault Float)
  | policyArms (policy catalog : Nat)
  | noFile (path : String)
  | listen (address reason : String)
  deriving Repr

/-- A refusal of parameters, as it is worded wherever it comes from. -/
def invalidText (cause : String) : String := "invalid configuration: " ++ cause

/-- The wording of a fault. -/
def StartFault.text : StartFault → String
  | .catalog cause => invalidText cause.message
  | .armCount configured factors powers arms =>
    "configured " ++ Decimal.textOfNat configured ++ " arms but " ++ Decimal.textOfNat factors ++
      " spreading factors x " ++ Decimal.textOfNat powers ++ " powers give " ++
      Decimal.textOfNat arms
  | .weights cause => invalidText cause.message
  | .noTime => "timeout_ms must be positive"
  | .noDevices => "max_devices must be positive"
  | .strategy cause => invalidText cause.message
  | .policyArms policy grid =>
    "policy has " ++ Decimal.textOfNat policy ++ " arms but the catalog has " ++
      Decimal.textOfNat grid
  | .noFile path => "config file " ++ path ++ " not found"
  | .listen address reason => "cannot listen on " ++ address ++ ": " ++ reason

/-- The message of a fault. -/
def StartFault.message (fault : StartFault) : String := "startup failed: " ++ fault.text

namespace Config

/-- The catalog of the options, if it has the expected number of actions. -/
def catalog (c : Config) : Except StartFault Catalog := do
  let grid ← (Catalog.ofOptions c.factors c.powers).mapError .catalog
  match c.arms with
  | none => return grid
  | some arms =>
    if arms.toNat = grid.size then return grid
    else throw (.armCount arms.toNat c.factors.length c.powers.length grid.size)

/-- The generator of a seed, where there is one. Otherwise it is drawn afresh at every start, and
`entropy` is what was drawn. -/
def generator (c : Config) (entropy : Random.Gen) : Random.Gen := c.seed.elim entropy .ofSeed

/-- The policy of the strategy over a catalog, with a source of chance. -/
def policy {γ : Type} (c : Config) (grid : Catalog) (source : γ) :
    Except StartFault (Policy Float γ) :=
  (Policy.create grid.size c.strategy c.weights source).mapError .strategy

/-- Finding the first fault. Nothing is drawn from the policy that is tried here. -/
def check (c : Config) : Except StartFault Unit := do
  let grid ← c.catalog
  c.weights.check.mapError .weights
  if c.timeout = 0 then throw .noTime
  if c.maxDevices = 0 then throw .noDevices
  discard (c.policy grid ())

end Config

end LinkTuner

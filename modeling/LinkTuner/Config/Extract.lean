import LinkTuner.Config.Setting

/-!
# A configuration and its settings

`Config.settings` is the tree of a configuration and `Setting.config?` reads a configuration from a
tree. Nothing is converted, but a whole number may stand for a decimal one.
-/

namespace LinkTuner

/-- The tree of weights. -/
def Weights.settings (w : Weights Float) : Setting :=
  .table [("alpha", .decimal w.alpha), ("beta", .decimal w.beta),
    ("energy_reference_j", .decimal w.reference)]

/-- A number that may be missing. -/
def Setting.ofOptional {α : Type} (f : α → Setting) : Option α → Setting
  | none => .nothing
  | some a => f a

/-- The tree of a strategy. -/
def Strategy.settings : Strategy Float → Setting
  | .exponential gamma low high =>
    .table [("kind", .text "exp3"), ("gamma", .decimal gamma),
      ("reward_min", .ofOptional .decimal low), ("reward_max", .ofOptional .decimal high)]
  | .greedy epsilon step =>
    .table [("kind", .text "epsilon-greedy"), ("epsilon", .decimal epsilon),
      ("step_size", .ofOptional .decimal step)]

/-- The setting of a number of eight bytes. -/
def Setting.ofWord (n : UInt64) : Setting := .natural n.toNat

/-- The tree of a configuration. -/
def Config.settings (c : Config) : Setting :=
  .table [("listen_addr", .text c.listenAddress),
    ("spreading_factors", .list (c.factors.map fun n => .natural n.toNat)),
    ("tx_powers_dbm", .list (c.powers.map fun n => .whole n.toInt)),
    ("arms", .ofOptional .ofWord c.arms), ("timeout_ms", .ofWord c.timeout),
    ("max_devices", .ofWord c.maxDevices), ("history_len", .ofWord c.historyLength),
    ("status_interval_secs", .ofWord c.statusInterval), ("seed", .ofOptional .ofWord c.seed),
    ("log_level", .text c.logLevel), ("reward", c.weights.settings),
    ("strategy", c.strategy.settings)]

namespace Setting

/-- Text. -/
def text? : Setting → Option String
  | .text s => some s
  | _ => none

/-- A whole number. -/
def int? : Setting → Option Int
  | .natural n => some n
  | .whole n => some n
  | _ => none

/-- A whole number from `low` up to `high`, the latter excluded. -/
def within? (low high : Int) (v : Setting) : Option Int :=
  v.int?.filter fun n => low ≤ n && n < high

/-- A number of one byte. -/
def byte? (v : Setting) : Option UInt8 := (v.within? 0 UInt8.size).map fun n => UInt8.ofNat n.toNat

/-- A signed number of one byte. -/
def signedByte? (v : Setting) : Option Int8 := (v.within? (-128) 128).map Int8.ofInt

/-- A number of eight bytes. -/
def word? (v : Setting) : Option UInt64 :=
  (v.within? 0 UInt64.size).map fun n => UInt64.ofNat n.toNat

/-- A decimal number. -/
def float? : Setting → Option Float
  | .natural n => some (Float.ofNat n)
  | .whole n => some (Float.ofInt n)
  | .decimal x => some x
  | _ => none

/-- A setting that may be missing. -/
def optional? {α : Type} (read : Setting → Option α) : Setting → Option (Option α)
  | .nothing => some none
  | v => (read v).map some

/-- A list of settings of one kind. -/
def list? {α : Type} (read : Setting → Option α) : Setting → Option (List α)
  | .list vs => vs.mapM read
  | _ => none

/-- The settings of the given names, from a table or from a list in their order. -/
def fields? (names : List String) : Setting → Option (List (Option Setting))
  | .table entries => some (names.map (named? · entries))
  | .list vs => some (names.mapIdx fun i _ => vs[i]?)
  | _ => none

/-- The setting in a place, read, or what holds where there is none. -/
def readAt {α : Type} (fields : List (Option Setting)) (i : Nat) (default : Option α)
    (read : Setting → Option α) : Option α :=
  match (fields[i]?).join with
  | none => default
  | some v => read v

/-- Weights, all of which must be there. -/
def weights? (v : Setting) : Option (Weights Float) := do
  let f ← v.fields? ["alpha", "beta", "energy_reference_j"]
  return ⟨← readAt f 0 none float?, ← readAt f 1 none float?, ← readAt f 2 none float?⟩

/-- The kinds of strategies in their order. -/
def kinds : List String := ["exp3", "epsilon-greedy"]

/-- The kind of a strategy, by its name or by its place in the order. -/
def kind? : Setting → Option String
  | .text s => if kinds.contains s then some s else none
  | .natural n => kinds[n]?
  | _ => none

/-- The parameters of a strategy of a given kind; a list has no more of them than there are. -/
def parameters? (kind : String) (rest : Setting) : Option (Strategy Float) :=
  let names := if kind = "exp3" then ["gamma", "reward_min", "reward_max"]
    else ["epsilon", "step_size"]
  let tooMany : Bool := match rest with
    | .list vs => names.length < vs.length
    | _ => false
  if tooMany then none
  else do
    let f ← rest.fields? names
    let share ← readAt f 0 (some 0.1) float?
    let second ← readAt f 1 (some none) (optional? float?)
    if kind = "exp3" then
      return .exponential share second (← readAt f 2 (some none) (optional? float?))
    else return .greedy share second

/-- A strategy: a table with its kind, or a list that begins with it. -/
def strategy? : Setting → Option (Strategy Float)
  | .table entries => do
    let kind ← (← named? "kind" entries).kind?
    parameters? kind (.table entries)
  | .list (kind :: rest) => do parameters? (← kind.kind?) (.list rest)
  | _ => none

/-- A configuration. What is left out has its standard value. -/
def config? (v : Setting) : Option Config := do
  let entries ← match v with
    | .table entries => some entries
    | _ => none
  let read {α : Type} (name : String) (default : α) (get : Setting → Option α) : Option α :=
    readAt [named? name entries] 0 (some default) get
  let std := Config.standard
  return {
    listenAddress := ← read "listen_addr" std.listenAddress text?
    factors := ← read "spreading_factors" std.factors (list? byte?)
    powers := ← read "tx_powers_dbm" std.powers (list? signedByte?)
    arms := ← read "arms" std.arms (optional? word?)
    timeout := ← read "timeout_ms" std.timeout word?
    maxDevices := ← read "max_devices" std.maxDevices word?
    historyLength := ← read "history_len" std.historyLength word?
    statusInterval := ← read "status_interval_secs" std.statusInterval word?
    seed := ← read "seed" std.seed (optional? word?)
    logLevel := ← read "log_level" std.logLevel text?
    weights := ← read "reward" std.weights weights?
    strategy := ← read "strategy" std.strategy strategy? }

end Setting

end LinkTuner

import LinkTuner.Config.Basic
import LinkTuner.Json.Fields
import LinkTuner.Wire.Message

/-!
# The JSON forms of the data

For each kind of data there is a value that is written and a reader that takes it back, given a
reader of numbers. Names are not checked here: a device may have any text for its name in JSON.
-/

namespace LinkTuner

open Json (Value NumberReader)

/-- The JSON form of a device. -/
def DeviceId.toJson (id : DeviceId) : Value := .text id.text

/-- A device from its JSON form. -/
def DeviceId.ofJson? (v : Value) : Option DeviceId := v.text?.map (⟨·⟩)

/-- The JSON form of a session. -/
def SessionId.toJson (s : SessionId) : Value := .text s.dashed

/-- A session from its JSON form. -/
def SessionId.ofJson? (v : Value) : Option SessionId := v.text?.bind SessionId.ofText?

/-- The JSON form of an action. -/
def ActionId.toJson (a : ActionId) : Value := .nat a.toNat

/-- An action from its JSON form. -/
def ActionId.ofJson? (v : Value) : Option ActionId := (v.nat? UInt32.size).map ActionId.ofNat

/-- A number of one byte. -/
def Json.Value.byte? (v : Value) : Option UInt8 := (v.nat? UInt8.size).map UInt8.ofNat

/-- A signed number of one byte. -/
def Json.Value.signedByte? (v : Value) : Option Int8 := (v.int? 128).map Int8.ofInt

/-- A number of eight bytes. -/
def Json.Value.word? (v : Value) : Option UInt64 := (v.nat? UInt64.size).map UInt64.ofNat

/-- The JSON form of a number of eight bytes. -/
def Json.Value.word (n : UInt64) : Value := .nat n.toNat

/-- The JSON form of a radio setting. -/
def RadioSetting.toJson (s : RadioSetting) : Value :=
  .record [("spreading_factor", .nat s.factor.toNat), ("tx_power_dbm", .int s.power.toInt)]

/-- A radio setting from its JSON form. -/
def RadioSetting.ofJson? (v : Value) : Option RadioSetting := do
  let f ← v.fields? ["spreading_factor", "tx_power_dbm"]
  return ⟨← f.required 0 Value.byte?, ← f.required 1 Value.signedByte?⟩

/-- The JSON form of weights. -/
def Weights.toJson (w : Weights Float) : Value :=
  .record [("alpha", .float w.alpha), ("beta", .float w.beta),
    ("energy_reference_j", .float w.reference)]

/-- Weights from their JSON form. -/
def Weights.ofJson? [NumberReader] (v : Value) : Option (Weights Float) := do
  let f ← v.fields? ["alpha", "beta", "energy_reference_j"]
  return ⟨← f.required 0 Value.float?, ← f.required 1 Value.float?, ← f.required 2 Value.float?⟩

/-- The JSON form of an outcome. -/
def Outcome.toJson (o : Outcome Float) : Value :=
  .record [("delivery", .optional .float o.delivery), ("energy_j", .optional .float o.energy)]

/-- An outcome from its JSON form. -/
def Outcome.ofJson? [NumberReader] (v : Value) : Option (Outcome Float) := do
  let f ← v.fields? ["delivery", "energy_j"]
  return ⟨← f.optional 0 Value.float?, ← f.optional 1 Value.float?⟩

/-- The JSON form of a reward. -/
def Reward.toJson (r : Reward Float) : Value :=
  .record [("value", .float r.value), ("delivery", .float r.delivery), ("energy", .float r.energy),
    ("neutral", .bool r.neutral)]

/-- A reward from its JSON form. -/
def Reward.ofJson? [NumberReader] (v : Value) : Option (Reward Float) := do
  let f ← v.fields? ["value", "delivery", "energy", "neutral"]
  return ⟨← f.required 0 Value.float?, ← f.required 1 Value.float?, ← f.required 2 Value.float?,
    ← f.withDefault 3 false Value.bool?⟩

/-- The JSON form of a sample. -/
def Sample.toJson (s : Sample Float) : Value :=
  .record [("device", s.device.toJson), ("outcome", s.outcome.toJson),
    ("reward", s.reward.toJson), ("neutral", .bool s.neutral)]

/-- A sample from its JSON form. -/
def Sample.ofJson? [NumberReader] (v : Value) : Option (Sample Float) := do
  let f ← v.fields? ["device", "outcome", "reward", "neutral"]
  return ⟨← f.required 0 DeviceId.ofJson?, ← f.required 1 Outcome.ofJson?,
    ← f.required 2 Reward.ofJson?, ← f.required 3 Value.bool?⟩

/-- The JSON form of a snapshot. -/
def Snapshot.toJson (s : Snapshot Float) : Value :=
  .record [("strategy", .text s.strategy), ("weights", .array (s.weights.map .float)),
    ("probabilities", .array (s.probabilities.map .float)), ("updates", .nat s.updates)]

/-- A snapshot from its JSON form. -/
def Snapshot.ofJson? [NumberReader] (v : Value) : Option (Snapshot Float) := do
  let f ← v.fields? ["strategy", "weights", "probabilities", "updates"]
  return ⟨← f.required 0 Value.text?, ← f.required 1 (Value.list? Value.float?),
    ← f.required 2 (Value.list? Value.float?), ← f.required 3 (Value.nat? UInt64.size)⟩

/-- The JSON form of an observation. -/
def Wire.Observation.toJson (o : Wire.Observation) : Value :=
  .record [("device", o.device.toJson), ("previous_action", .optional ActionId.toJson o.previous),
    ("outcome", o.outcome.toJson), ("seq", .optional .word o.sequence)]

/-- An observation from its JSON form. -/
def Wire.Observation.ofJson? [NumberReader] (v : Value) : Option Wire.Observation := do
  let f ← v.fields? ["device", "previous_action", "outcome", "seq"]
  return ⟨← f.required 0 DeviceId.ofJson?, ← f.optional 1 ActionId.ofJson?,
    ← f.required 2 Outcome.ofJson?, ← f.optional 3 Value.word?⟩

/-- The JSON form of a decision. -/
def Wire.Decision.toJson (d : Wire.Decision) : Value :=
  .record [("device", d.device.toJson), ("action", d.action.toJson),
    ("seq", .optional .word d.sequence)]

/-- A decision from its JSON form. -/
def Wire.Decision.ofJson? (v : Value) : Option Wire.Decision := do
  let f ← v.fields? ["device", "action", "seq"]
  return ⟨← f.required 0 DeviceId.ofJson?, ← f.required 1 ActionId.ofJson?,
    ← f.optional 2 Value.word?⟩

/-- The JSON form of a strategy: its kind comes before its parameters. -/
def Strategy.toJson : Strategy Float → Value
  | .exponential gamma low high =>
    .record [("kind", .text "exp3"), ("gamma", .float gamma), ("reward_min", .optional .float low),
      ("reward_max", .optional .float high)]
  | .greedy epsilon step =>
    .record [("kind", .text "epsilon-greedy"), ("epsilon", .float epsilon),
      ("step_size", .optional .float step)]

/-- The parameters of a strategy of a given kind. -/
def Strategy.parameters? [NumberReader] (kind : Value) (rest : Value) : Option (Strategy Float) :=
  match kind.text? with
  | some "exp3" => do
    let f ← rest.fields? ["gamma", "reward_min", "reward_max"]
    return .exponential (← f.withDefault 0 0.1 Value.float?)
      (← f.withDefault 1 none (Value.optional? Value.float?))
      (← f.withDefault 2 none (Value.optional? Value.float?))
  | some "epsilon-greedy" => do
    let f ← rest.fields? ["epsilon", "step_size"]
    return .greedy (← f.withDefault 0 0.1 Value.float?)
      (← f.withDefault 1 none (Value.optional? Value.float?))
  | _ => none

/-- A strategy from its JSON form. The kind may stand anywhere in an object and comes first in an
array. Since the kind decides how the rest is read, all of it must be readable, nested no deeper
than `depth`. -/
def Strategy.ofJson? [NumberReader] (depth : Nat) (v : Value) : Option (Strategy Float) :=
  if v.isReadable depth then
    match v with
    | .array (kind :: rest) => Strategy.parameters? kind (.array rest)
    | .object members => do
      let kind ← (← Json.only? "kind" members)
      Strategy.parameters? kind (.object (members.filter fun m => m.1 != some "kind"))
    | _ => none
  else none

/-- How deep JSON may be nested. -/
def Json.maxDepth : Nat := 127

/-- The JSON form of a configuration. -/
def Config.toJson (c : Config) : Value :=
  .record [("listen_addr", .text c.listenAddress),
    ("spreading_factors", .array (c.factors.map fun n => .nat n.toNat)),
    ("tx_powers_dbm", .array (c.powers.map fun n => .int n.toInt)),
    ("arms", .optional .word c.arms), ("timeout_ms", .word c.timeout),
    ("max_devices", .word c.maxDevices), ("history_len", .word c.historyLength),
    ("status_interval_secs", .word c.statusInterval), ("seed", .optional .word c.seed),
    ("log_level", .text c.logLevel), ("reward", c.weights.toJson),
    ("strategy", c.strategy.toJson)]

/-- The names of the fields of a configuration, in order. -/
def Config.fieldNames : List String :=
  ["listen_addr", "spreading_factors", "tx_powers_dbm", "arms", "timeout_ms", "max_devices",
    "history_len", "status_interval_secs", "seed", "log_level", "reward", "strategy"]

/-- A configuration from its JSON form. What is left out has its standard value. -/
def Config.ofJson? [NumberReader] (v : Value) : Option Config := do
  let f ← v.fields? Config.fieldNames
  let std := Config.standard
  return {
    listenAddress := ← f.withDefault 0 std.listenAddress Value.text?
    factors := ← f.withDefault 1 std.factors (Value.list? Value.byte?)
    powers := ← f.withDefault 2 std.powers (Value.list? Value.signedByte?)
    arms := ← f.withDefault 3 std.arms (Value.optional? Value.word?)
    timeout := ← f.withDefault 4 std.timeout Value.word?
    maxDevices := ← f.withDefault 5 std.maxDevices Value.word?
    historyLength := ← f.withDefault 6 std.historyLength Value.word?
    statusInterval := ← f.withDefault 7 std.statusInterval Value.word?
    seed := ← f.withDefault 8 std.seed (Value.optional? Value.word?)
    logLevel := ← f.withDefault 9 std.logLevel Value.text?
    weights := ← f.withDefault 10 std.weights Weights.ofJson?
    strategy := ← f.withDefault 11 std.strategy (Strategy.ofJson? (Json.maxDepth - 1)) }

end LinkTuner

import LinkTuner.CommandLine.Words
import LinkTuner.Config.Sources

/-!
# Commands

There are three commands: to run a controller, which is meant where none is named, to show the
configuration, and to probe a controller that runs. The options of the configuration stand before
the command and those of a probe after it.
-/

namespace LinkTuner.CommandLine

/-- What a probe is told. -/
structure Probe where
  address : String
  device : String
  rounds : UInt32
  /-- How long to wait for each reply, in milliseconds. -/
  wait : UInt64
  deriving DecidableEq, Repr

/-- What is to be done. -/
inductive Command where
  | run
  | display
  | probe (p : Probe)
  deriving DecidableEq, Repr

/-- A command line that can be followed. -/
structure Invocation where
  /-- The path of the configuration file. -/
  file : Option String
  overrides : Overrides
  command : Command
  deriving Repr

/-- The value of an option that has none yet. -/
def once {α : Type} (old new : Option α) : Option (Option α) :=
  if old.isSome then none else new.map some

/-- A number of eight bytes. -/
def word? (value : String) : Option UInt64 :=
  (Decimal.unsigned? UInt64.size value.toList).map UInt64.ofNat

/-- A number of four bytes; zero may have a minus sign. -/
def halfWord? (value : String) : Option UInt32 :=
  ((Decimal.signed? Decimal.signedLimit value.toList).filter fun n =>
    0 ≤ n ∧ n < (UInt32.size : Int)).map fun n => UInt32.ofNat n.toNat

/-- A double. -/
def double? (value : String) : Option Float := Decimal.float? value.toList

/-- The path of a file, which is never empty. -/
def path? (value : String) : Option String := if value.isEmpty then none else some value

/-- The options that stand before a command. -/
inductive MainOption where
  | config
  | listen
  | arms
  | strategy
  | gamma
  | epsilon
  | alpha
  | beta
  | timeout
  | maxDevices
  | seed
  | logLevel
  deriving DecidableEq, Repr

/-- What the options before a command set. -/
structure MainSettings where
  file : Option String := none
  overrides : Overrides := {}

namespace MainOption

/-- The names of the options. -/
def named : List (String × MainOption) :=
  [("config", .config), ("listen", .listen), ("arms", .arms), ("strategy", .strategy),
    ("gamma", .gamma), ("epsilon", .epsilon), ("alpha", .alpha), ("beta", .beta),
    ("timeout-ms", .timeout), ("max-devices", .maxDevices), ("seed", .seed),
    ("log-level", .logLevel)]

/-- The settings with the value of one more option. -/
def take? (s : MainSettings) (o : MainOption) (value : String) : Option MainSettings :=
  let v := s.overrides
  let set (w : Overrides) : MainSettings := { s with overrides := w }
  match o with
  | .config => (once s.file (path? value)).map fun x => { s with file := x }
  | .listen => (once v.listen (some value)).map fun x => set { v with listen := x }
  | .arms => (once v.arms (word? value)).map fun x => set { v with arms := x }
  | .strategy => (once v.strategy (some value)).map fun x => set { v with strategy := x }
  | .gamma => (once v.gamma (double? value)).map fun x => set { v with gamma := x }
  | .epsilon => (once v.epsilon (double? value)).map fun x => set { v with epsilon := x }
  | .alpha => (once v.alpha (double? value)).map fun x => set { v with alpha := x }
  | .beta => (once v.beta (double? value)).map fun x => set { v with beta := x }
  | .timeout => (once v.timeout (word? value)).map fun x => set { v with timeout := x }
  | .maxDevices => (once v.maxDevices (word? value)).map fun x => set { v with maxDevices := x }
  | .seed => (once v.seed (word? value)).map fun x => set { v with seed := x }
  | .logLevel => (once v.logLevel (some value)).map fun x => set { v with logLevel := x }

/-- The options before a command; two of them have a letter. -/
def grammar : Grammar MainOption MainSettings where
  long? name := (named.find? (·.1 == name)).map (·.2)
  short? c := if c = 'c' then some .config else if c = 'l' then some .listen else none
  take? := take?

end MainOption

/-- The options of a probe. -/
inductive ProbeOption where
  | address
  | device
  | rounds
  | wait
  deriving DecidableEq, Repr

/-- What the options of a probe set. -/
structure ProbeSettings where
  address : Option String := none
  device : Option String := none
  rounds : Option UInt32 := none
  wait : Option UInt64 := none

namespace ProbeOption

/-- The names of the options. -/
def named : List (String × ProbeOption) :=
  [("addr", .address), ("device", .device), ("rounds", .rounds), ("wait-ms", .wait)]

/-- The settings with the value of one more option. -/
def take? (s : ProbeSettings) (o : ProbeOption) (value : String) : Option ProbeSettings :=
  match o with
  | .address => (once s.address (some value)).map fun x => { s with address := x }
  | .device => (once s.device (some value)).map fun x => { s with device := x }
  | .rounds => (once s.rounds (halfWord? value)).map fun x => { s with rounds := x }
  | .wait => (once s.wait (word? value)).map fun x => { s with wait := x }

/-- The options of a probe; none of them has a letter. -/
def grammar : Grammar ProbeOption ProbeSettings where
  long? name := (named.find? (·.1 == name)).map (·.2)
  short? _ := none
  take? := take?

end ProbeOption

/-- The probe of some settings. -/
def ProbeSettings.probe (s : ProbeSettings) : Probe where
  address := s.address.getD Config.standard.listenAddress
  device := s.device.getD "probe-0"
  rounds := s.rounds.getD 5
  wait := s.wait.getD 1000

/-- A command without options. -/
def bare : Grammar Empty Unit := ⟨fun _ => none, fun _ => none, fun _ o => o.elim⟩

/-- The names of the commands. -/
def commandNames : List String := ["run", "config", "probe", "help"]

/-- A command and its own options. `help` can be followed by the command that it is about. -/
def Command.ofWords : List String → Except Refusal Command
  | [] => .ok .run
  | "run" :: rest => (settingsOf bare () rest).map fun _ => .run
  | "config" :: rest => (settingsOf bare () rest).map fun _ => .display
  | "probe" :: rest => (settingsOf ProbeOption.grammar {} rest).map fun s => .probe s.probe
  | ["help"] => .error .help
  | ["help", about] => .error (if commandNames.contains about then .help else .misuse)
  | _ => .error .misuse

/-- Following a command line. What is wrong after the command shows before what is wrong with the
last option in front of it. -/
def Invocation.ofWords (words : List String) : Except Refusal Invocation := do
  let (d, rest) ← scan MainOption.grammar commandNames.contains (.start {}) words
  let command ← Command.ofWords rest
  let settings := (← d.settle MainOption.grammar).settings
  return ⟨settings.file, settings.overrides, command⟩

/-- The sources of the configuration, with the text of each file that there is. -/
def Invocation.sources (i : Invocation) (environment : List (String × String))
    (textOf : String → Option String) : Sources :=
  ⟨i.file.map fun path => ⟨path, textOf path⟩, environment, i.overrides⟩

end LinkTuner.CommandLine

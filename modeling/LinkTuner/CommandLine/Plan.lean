import LinkTuner.CommandLine.Command
import LinkTuner.Controller.Session
import LinkTuner.Toml.Printer
import LinkTuner.Wire.Address

/-!
# What a command comes to

Before anything is sent or received a command either ends, with text to print or with a failure, or
has everything it needs: a controller with its configuration, or a device and the address to probe.
-/

namespace LinkTuner.CommandLine

/-- Why a command ends without having done anything. -/
inductive Failure where
  | load (cause : LoadFault)
  /-- The configuration has a number that cannot be written. -/
  | unprintable
  | device (raw : String)
  | address (cause : Wire.AddressFault)
  /-- No network leads to the address. -/
  | noNetwork
  deriving Repr

namespace Failure

/-- A fault that is shown by its kind and its parts. -/
def shape (kind : String) (parts : List (String × String)) : String :=
  kind ++ " \x7b " ++ ", ".intercalate (parts.map fun (k, v) => k ++ ": " ++ v) ++ " \x7d"

/-- The exit code of a failure. -/
def code : Failure → Nat
  | .load .cutCharacter => 101
  | _ => 1

/-- How a fault of an address is shown. -/
def addressShape (cause : Wire.AddressFault) : String :=
  match cause with
  | .noPort | .badPort =>
    shape "Error" [("kind", "InvalidInput"), ("message", Text.quote cause.message)]
  | _ => shape "Custom" [("kind", "Uncategorized"), ("error", Text.quote cause.message)]

/-- How a failure is shown. A source that cannot be read has no fixed wording. -/
def shown? : Failure → Option String
  | .load .unreadable | .load .cutCharacter => none
  | .load (.start cause) => some ("Startup(" ++ Text.quote cause.text ++ ")")
  | .unprintable => some (shape "Error" [("inner", "OutOfRange(Some(\"u64\"))")])
  | .device raw => some ("InvalidDeviceId(" ++ Text.quote raw ++ ")")
  | .address cause => some ("Io(" ++ addressShape cause ++ ")")
  | .noNetwork =>
    some ("Io(" ++ shape "Os" [("code", "101"), ("kind", "NetworkUnreachable"),
      ("message", Text.quote "Network is unreachable")] ++ ")")

/-- The line in which a failure is reported. -/
def line? (f : Failure) : Option String := f.shown?.map fun text => "Error: " ++ text ++ "\n"

end Failure

/-- What a command comes to. -/
inductive Plan where
  | print (text : String)
  | fail (cause : Failure)
  | serve (config : Config) (controller : Controller (Policy Float Random.Gen))
      (events : List Event)
  | probe (p : Probe) (device : DeviceId)

/-- Showing a configuration. -/
def showPlan (sources : Sources) : Plan :=
  match sources.load with
  | .error fault => .fail (.load fault)
  | .ok config =>
    match config.toToml? with
    | some text => .print text
    | none => .fail .unprintable

/-- Running a controller. The controller is built before its address is looked at. -/
def runPlan (sources : Sources) (entropy : Random.Gen) : Plan :=
  match sources.load with
  | .error fault => .fail (.load fault)
  | .ok config =>
    match Controller.ofConfig config entropy with
    | .error fault => .fail (.load (.start fault))
    | .ok (controller, events) =>
      match Wire.listenFault? config.listenAddress with
      | some fault => .fail (.load (.start (.listen config.listenAddress fault.message)))
      | none => .serve config controller events

/-- Probing a controller. -/
def probePlan (p : Probe) : Plan :=
  match DeviceId.ofText? p.device with
  | none => .fail (.device p.device)
  | some device =>
    match Wire.reachFault? p.address with
    | some fault => .fail (.address fault)
    | none => .probe p device

/-- What an invocation comes to, given its sources and the generator of a controller that has no
seed. -/
def Invocation.plan (i : Invocation) (sources : Sources) (entropy : Random.Gen := .ofSeed 0) :
    Plan :=
  match i.command with
  | .run => runPlan sources entropy
  | .display => showPlan sources
  | .probe p => probePlan p

/-- The observation of one round of a probe: the first knows of no action, the others report that
the last one worked at little cost. -/
def roundObservation (device : DeviceId) (previous : Option ActionId) (round : Nat) :
    Wire.Observation :=
  let outcome : Outcome Float := if previous.isSome then ⟨some 1.0, some 0.02⟩ else ⟨none, none⟩
  ⟨device, previous, outcome, some (UInt64.ofNat round)⟩

end LinkTuner.CommandLine

import LinkTuner.Config.Environment
import LinkTuner.Config.Extract
import LinkTuner.Toml.Reader

/-!
# Where a configuration comes from

There are four sources: what holds where nothing is said, a file, the environment, and the options
of the command line. Each is a tree of settings, and a later one is laid over those before it, so
that the last source that sets a path decides it.
-/

namespace LinkTuner

/-- What the options of the command line set. -/
structure Overrides where
  listen : Option String := none
  arms : Option UInt64 := none
  strategy : Option String := none
  gamma : Option Float := none
  epsilon : Option Float := none
  alpha : Option Float := none
  beta : Option Float := none
  timeout : Option UInt64 := none
  maxDevices : Option UInt64 := none
  seed : Option UInt64 := none
  logLevel : Option String := none
  deriving Repr

namespace Overrides

/-- The settings by their paths. -/
def assignments (o : Overrides) : List (List String × Option Setting) :=
  [(["listen_addr"], o.listen.map .text), (["arms"], o.arms.map .ofWord),
    (["strategy", "kind"], o.strategy.map .text), (["strategy", "gamma"], o.gamma.map .decimal),
    (["strategy", "epsilon"], o.epsilon.map .decimal), (["reward", "alpha"], o.alpha.map .decimal),
    (["reward", "beta"], o.beta.map .decimal), (["timeout_ms"], o.timeout.map .ofWord),
    (["max_devices"], o.maxDevices.map .ofWord), (["seed"], o.seed.map .ofWord),
    (["log_level"], o.logLevel.map .text)]

/-- The tree of the options. -/
def settings (o : Overrides) : Setting :=
  .layers (o.assignments.filterMap fun (path, v) => v.map (.nested path))

end Overrides

/-- A file that is named as a source. -/
structure SettingsFile where
  path : String
  /-- Its text, if there is such a file. -/
  text : Option String
  deriving Repr

/-- All that a configuration is made from. -/
structure Sources where
  file : Option SettingsFile
  environment : List (String × String)
  overrides : Overrides
  deriving Repr

/-- Why no configuration can be made. -/
inductive LoadFault where
  /-- Some source cannot be read, or its settings are of the wrong kind. -/
  | unreadable
  /-- A text in the environment would be cut inside a character. -/
  | cutCharacter
  | start (cause : StartFault)
  deriving Repr

namespace Sources

/-- The tree of the file. Without a file, or when there is none of its name, it is empty. -/
def fileSettings? (s : Sources) : Option Setting :=
  match s.file.bind (·.text) with
  | none => some (.table [])
  | some text => Toml.read? text

/-- The trees of all sources, the least important first. -/
def layers (s : Sources) : Except LoadFault (List Setting) := do
  let environment ← (Environment.settings? s.environment).elim (.error .cutCharacter) .ok
  let file ← s.fileSettings?.elim (.error .unreadable) .ok
  return [Config.standard.settings, file, environment, s.overrides.settings]

/-- The configuration that the sources give, unchecked. -/
def config (s : Sources) : Except LoadFault Config := do
  (Setting.layers (← s.layers)).config?.elim (.error .unreadable) .ok

/-- The configuration of a controller that is to be started: a file that is named must be there, and
the configuration must be free of faults. -/
def load (s : Sources) : Except LoadFault Config :=
  match s.file with
  | some ⟨path, none⟩ => .error (.start (.noFile path))
  | _ => do
    let c ← s.config
    (c.check.mapError .start).map fun _ => c

end Sources

end LinkTuner

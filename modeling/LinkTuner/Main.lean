import LinkTuner.CommandLine.Plan
import LinkTuner.CommandLine.Usage
import LinkTuner.Wire.Client

/-!
# The program

The program has no sockets of its own. A controller serves the one session that is connected to its
standard input and output, and a probe sends and receives in the same way; whoever starts them
connects the two. What they have to say goes to standard error.
-/

namespace LinkTuner.Program

/-- The variables of the environment. -/
def environment : IO (List (String × String)) := do
  try
    let bytes ← IO.FS.readBinFile "/proc/self/environ"
    return Environment.bindings ((String.fromUTF8? bytes).getD "").toList
  catch _ => return []

/-- The text of a file, if it can be read. -/
def textOf (path : String) : IO (Option String) := do
  try return some (← IO.FS.readFile path) catch _ => return none

/-- Writing events to the log. -/
def log (setting : String) (events : List Event) : IO Unit := do
  for e in events do
    if e.isShown setting then IO.eprintln e.line

/-- Writing bytes to the peer. -/
def send (bytes : List UInt8) : IO Unit := do
  let output ← IO.getStdout
  output.write ⟨bytes.toArray⟩
  output.flush

/-- Reading what a stream lacks, as far as it is there. Nothing is read at the end of the stream. -/
def receive (stream : List UInt8) : IO ByteArray := do
  (← IO.getStdin).read (USize.ofNat (min 65536 (Wire.missing stream)))

/-- Serving a session to the end of its stream. -/
partial def serve (setting : String) (session : SessionId)
    (c : Controller (Policy Float Random.Gen)) (left : List UInt8) :
    IO (Controller (Policy Float Random.Gen)) := do
  let bytes ← receive left
  if bytes.isEmpty then
    let step := c.closeSession session left
    log setting step.events
    return step.controller
  let (frames, left) := Wire.framesOf (left ++ bytes.toList)
  let step := c.exchange session (← IO.monoMsNow) frames
  log setting step.events
  for d in step.result do
    send (d.frame?.getD [])
  serve setting session step.controller left

/-- Running a controller for one session. -/
def runController (setting : String) (c : Controller (Policy Float Random.Gen)) : IO Unit := do
  let bytes ← IO.getRandomBytes 16
  let session := (SessionId.ofBytes? bytes.toList).getD (.uniform 0)
  let opened := c.openSession session
  log setting opened.events
  let c ← serve setting session opened.controller []
  log setting c.finish.events

/-- What a stream holds once a frame is complete, once it has ended or when the deadline passes, and
whether it goes on. The task reads what comes next. -/
partial def await (stream : List UInt8) (task : Task (Except IO.Error ByteArray))
    (deadline : Nat) : IO (List UInt8 × Bool) := do
  if ← IO.hasFinished task then
    let bytes ← IO.ofExcept task.get
    if bytes.isEmpty then return (stream, false)
    let stream := stream ++ bytes.toList
    if (Wire.next stream).isOk then return (stream, true)
    await stream (← IO.asTask (receive stream)) deadline
  else if deadline ≤ (← IO.monoMsNow) then return (stream, true)
  else
    IO.sleep 1
    await stream task deadline

/-- Probing a controller. The first round that fails is the last. -/
def runProbe (p : CommandLine.Probe) (device : DeviceId) : IO UInt32 := do
  let mut previous : Option ActionId := none
  for round in [0:p.rounds.toNat] do
    match Wire.sent (CommandLine.roundObservation device previous round) with
    | .error fault =>
      IO.eprintln fault.message
      return 1
    | .ok bytes => send bytes
    let deadline := (← IO.monoMsNow) + p.wait.toNat
    let (stream, connected) ← await [] (← IO.asTask (receive [])) deadline
    match (Wire.request stream connected).1 with
    | .error fault =>
      IO.eprintln fault.message
      return 1
    | .ok d =>
      IO.eprintln (" ".intercalate
        ["seq=" ++ Decimal.textOfNat round, "action=" ++ d.action.text])
      previous := some d.action
  return 0

/-- A generator whose key nobody knows. -/
def someGenerator : IO Random.Gen := do
  let bytes ← IO.getRandomBytes 32
  let wordOf (place : Fin 8) : UInt32 :=
    (bytes.toList.drop (4 * place)).take 4 |>.foldr (fun b word => word * 256 + b.toUInt32) 0
  return ⟨.ofFn wordOf, 0⟩

/-- Carrying out a plan. -/
def carryOut (setting : Option String) : CommandLine.Plan → IO UInt32
  | .print text => do
    IO.print text
    return 0
  | .fail cause => do
    IO.eprint (cause.line?.getD "Error: the configuration cannot be read\n")
    return UInt32.ofNat cause.code
  | .serve config controller events => do
    let setting := setting.getD config.logLevel
    log setting events
    runController setting controller
    return 0
  | .probe p device => runProbe p device

/-- Following a command line. The exit code is 0 when all went well, that of the failure after one, and 2
for a command line that is wrong. The log follows the option, else the environment, else the
configuration. -/
def run (words : List String) : IO UInt32 := do
  match CommandLine.Invocation.ofWords words with
  | .error .help =>
    IO.print CommandLine.usage
    return 0
  | .error .misuse =>
    IO.eprintln "error: wrong arguments; for more information, try --help"
    return 2
  | .ok invocation =>
    let given ← environment
    let text ← match invocation.file with
      | some path => textOf path
      | none => pure none
    let setting := invocation.overrides.logLevel.orElse fun _ =>
      (given.find? (·.1 == "ADR_LOG")).map (·.2)
    let sources := invocation.sources given fun _ => text
    carryOut setting (invocation.plan sources (← someGenerator))

end LinkTuner.Program

/-- The program. -/
def main (args : List String) : IO UInt32 := LinkTuner.Program.run args

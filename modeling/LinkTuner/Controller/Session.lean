import LinkTuner.Controller.Basic
import LinkTuner.Wire.Frame

/-!
# Serving a session

A session is a stream of frames. Each frame that holds an observation is accepted as it arrives;
any other frame is counted and passed over, so that only the end of the stream ends the session.
Decisions follow later, in the order of the admissions, and each is sent as one frame.
-/

namespace LinkTuner

namespace Wire

/-- The observation that a frame holds. -/
def Frame.observation : Frame → Except Fault Observation
  | .payload bytes => (Observation.decode bytes).mapError .malformed
  | .oversized n => .error (.tooLarge n)

/-- The bytes of a decision as it is sent. -/
def Decision.frame? (d : Decision) : Option (List UInt8) := encode? (bytesOf d.encode)

end Wire

namespace Controller

variable {P : Type} [Learner P]

/-- Taking in one frame. -/
def receive (c : Controller P) (session : SessionId) (frame : Wire.Frame) (now : Time) :
    Step P (Option Admission) :=
  match frame.observation with
  | .ok o => c.accept session o now
  | .error fault => ⟨none, [.dropped session fault], c.countMalformed⟩

/-- Taking in frames in the order of their arrival. -/
def receiveAll (c : Controller P) (session : SessionId) (now : Time) :
    List Wire.Frame → Step P (List Admission)
  | [] => ⟨[], [], c⟩
  | frame :: frames =>
    let first := c.receive session frame now
    let others := first.controller.receiveAll session now frames
    ⟨first.result.toList ++ others.result, first.events ++ others.events, others.controller⟩

/-- Answering admissions one after another. -/
def decideAll (c : Controller P) : List Admission → Step P (List Wire.Decision)
  | [] => ⟨[], [], c⟩
  | a :: as =>
    let first := c.decide a .prompt
    let others := first.controller.decideAll as
    ⟨first.result.toList ++ others.result, first.events ++ others.events, others.controller⟩

/-- Answering the frames that arrived together: all of them are taken in before one is answered. -/
def exchange (c : Controller P) (session : SessionId) (now : Time) (frames : List Wire.Frame) :
    Step P (List Wire.Decision) :=
  let received := c.receiveAll session now frames
  let decided := received.controller.decideAll received.result
  { decided with events := received.events ++ decided.events }

/-- A session begins. -/
def openSession (c : Controller P) (session : SessionId) : Step P Unit :=
  ⟨(), [.opened session], c.sessionOpened⟩

/-- The stream of a session ends, perhaps with bytes that are no complete frame. -/
def closeSession (c : Controller P) (session : SessionId) (rest : List UInt8) : Step P Unit :=
  let ending := match (Wire.readAll rest).2 with
    | .clean => Event.closed session
    | e => Event.ended session (.broken e)
  let step := c.sessionClosed session
  { step with events := ending :: step.events }

/-- The end of a controller, with what is said about it. -/
def finish (c : Controller P) : Step P Unit :=
  let (last, stopped) := c.shutdown
  let state := match last with
    | some s => Event.final s
    | none => Event.noFinal unavailableText
  ⟨(), [state, .totals c.counters], stopped⟩

end Controller

end LinkTuner

import LinkTuner.Wire.Message

/-!
# The device side of a connection

A client writes one frame for each observation and reads decisions from the bytes that the
controller sent.
-/

namespace LinkTuner.Wire

/-- The frame of an observation. -/
def sent (o : Observation) : Except Fault (List UInt8) := write (bytesOf o.encode)

/-- The next decision in a stream, or nothing when the stream ended between frames, and the bytes
after it. A stream that ended is used up. -/
def receive (stream : List UInt8) : Except Fault (Option Decision) × List UInt8 :=
  match next stream with
  | .error .clean => (.ok none, [])
  | .error ending => (.error (.broken ending), [])
  | .ok (.oversized n, rest) => (.error (.tooLarge n), rest)
  | .ok (.payload bytes, rest) =>
    match Decision.decode bytes with
    | .ok d => (.ok (some d), rest)
    | .error cause => (.error (.malformed cause), rest)

/-- The reply to an observation that was sent. A peer that is still connected but does not complete
a frame is waited for until the deadline. -/
def request (stream : List UInt8) (connected : Bool) : Except Fault Decision × List UInt8 :=
  match next stream with
  | .error ending =>
    if connected then (.error .timeout, [])
    else if ending = .clean then (.error .closed, [])
    else (.error (.broken ending), [])
  | .ok _ =>
    match receive stream with
    | (.ok (some d), rest) => (.ok d, rest)
    | (.ok none, rest) => (.error .closed, rest)
    | (.error fault, rest) => (.error fault, rest)

end LinkTuner.Wire

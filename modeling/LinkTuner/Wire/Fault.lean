import LinkTuner.Wire.Frame
import LinkTuner.Decimal.Natural
import LinkTuner.Device

/-!
# What can go wrong with a message

A fault is recoverable when it is confined to one message, so that the messages after it can still
be read.
-/

namespace LinkTuner.Wire

/-- Why a payload is no message. -/
inductive Malformed where
  | notAscii
  | observationFields (count : Nat)
  | decisionFields (count : Nat)
  | device (raw : String)
  | previousAction (raw : String)
  | observationSequence (raw : String)
  | action (raw : String)
  | decisionSequence (raw : String)
  deriving DecidableEq, Repr

/-- The most fields of an observation. -/
def maxObservationFields : Nat := 5

/-- The wording of a refusal. -/
def Malformed.message : Malformed → String
  | .notAscii => "payload is not ASCII"
  | .observationFields count =>
    "observation needs 2 to " ++ Decimal.textOfNat maxObservationFields ++ " fields, got " ++
      Decimal.textOfNat count
  | .decisionFields count => "decision needs 2 or 3 fields, got " ++ Decimal.textOfNat count
  | .device raw => DeviceId.refusal raw
  | .previousAction raw => "previous action " ++ Text.quote raw ++ " is not an action id"
  | .observationSequence raw => "sequence number " ++ Text.quote raw ++ " is not an integer"
  | .action raw => "action " ++ Text.quote raw ++ " is not an action id"
  | .decisionSequence raw => "bad sequence number " ++ Text.quote raw

/-- Why no message comes through. -/
inductive Fault where
  | malformed (cause : Malformed)
  | tooLarge (length : Nat)
  | closed
  | timeout
  | broken (ending : Ending)
  deriving DecidableEq, Repr

/-- The wording of a fault. -/
def Fault.message : Fault → String
  | .malformed cause => "malformed message: " ++ cause.message
  | .tooLarge length =>
    "frame of " ++ Decimal.textOfNat length ++ " bytes exceeds limit of " ++
      Decimal.textOfNat maxPayload ++ " bytes"
  | .closed => "connection closed"
  | .timeout => "timeout"
  | .broken .insideOversized => "io error: unexpected end of file"
  | .broken _ => "io error: early eof"

/-- Whether the messages that follow can still be read. -/
def Fault.isRecoverable : Fault → Bool
  | .malformed _ | .tooLarge _ => true
  | .closed | .timeout | .broken _ => false

/-- The bytes that are written for a payload, unless it is too long. -/
def write (payload : List UInt8) : Except Fault (List UInt8) :=
  match encode? payload with
  | some bytes => .ok bytes
  | none => .error (.tooLarge payload.length)

end LinkTuner.Wire

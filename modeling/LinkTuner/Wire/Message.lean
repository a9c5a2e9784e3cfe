import LinkTuner.Wire.Fault
import LinkTuner.Catalog
import LinkTuner.Reward
import LinkTuner.Decimal.Read
import LinkTuner.Text.Blank

/-!
# Messages

A payload is ASCII text of fields between commas:

* an observation is `device,previous action,delivery,energy` and optionally a sequence number;
* a decision is `device,action` and optionally a sequence number.

Line ends after the last field and white space around each field do not count. Whatever stands for
the outcome can be unreadable, and then the outcome is only known in part; every other field must
be readable.
-/

namespace LinkTuner.Wire

/-- What a device reports. -/
structure Observation where
  device : DeviceId
  /-- The action that the device says it applied. -/
  previous : Option ActionId
  outcome : Outcome Float
  sequence : Option UInt64
  deriving Repr

/-- What a device is to apply next. -/
structure Decision where
  device : DeviceId
  action : ActionId
  sequence : Option UInt64
  deriving DecidableEq, Repr

/-- The bytes of text. -/
def bytesOf (s : String) : List UInt8 := s.toUTF8.toList

/-- A field that is empty when there is nothing to write. -/
def fieldOf {α : Type} (write : α → String) : Option α → String
  | none => ""
  | some a => write a

/-- Text with a sequence number after it, if there is one. -/
def withSequence (text : String) : Option UInt64 → String
  | none => text
  | some n => text ++ "," ++ Decimal.textOfNat n.toNat

/-- The text of an observation. -/
def Observation.encode (o : Observation) : String :=
  withSequence
    (o.device.text ++ "," ++ fieldOf ActionId.text o.previous ++ "," ++
      fieldOf Decimal.text o.outcome.delivery ++ "," ++ fieldOf Decimal.text o.outcome.energy)
    o.sequence

/-- The text of a decision. -/
def Decision.encode (d : Decision) : String :=
  withSequence (d.device.text ++ "," ++ d.action.text) d.sequence

/-- The characters of a payload, if each byte is one. -/
def ascii? (payload : List UInt8) : Option (List Char) :=
  if payload.all (· < 0x80) then some (payload.map fun b => Char.ofNat b.toNat) else none

/-- The fields of a payload. -/
def fields? (payload : List UInt8) : Option (List (List Char)) :=
  (ascii? payload).map fun cs =>
    (Text.split ',' (Text.trimEndBy (fun c => c == '\r' || c == '\n') cs)).map Text.trim

/-- The device that a field names. -/
def readDevice (field : List Char) : Except Malformed DeviceId :=
  match DeviceId.ofText? (String.ofList field) with
  | some id => .ok id
  | none => .error (.device (String.ofList field))

/-- The action whose number a field is. -/
def action? (field : List Char) : Option ActionId :=
  (Decimal.unsigned? UInt32.size field).map ActionId.ofNat

/-- The sequence number that a field is. -/
def sequence? (field : List Char) : Option UInt64 :=
  (Decimal.unsigned? UInt64.size field).map UInt64.ofNat

/-- Success words count as one and failure words as nothing; a ratio is taken as it is. -/
def delivery? (field : List Char) : Option Float :=
  let word := String.ofList (Decimal.lower field)
  if word = "true" ∨ word = "ok" ∨ word = "success" then some 1.0
  else if word = "false" ∨ word = "fail" ∨ word = "failure" then some 0.0
  else Decimal.float? field

/-- The action that was applied before, if any was. -/
def readPrevious (field : List Char) : Except Malformed (Option ActionId) :=
  if field = [] ∨ field = ['-'] then .ok none
  else match action? field with
    | some a => .ok (some a)
    | none => .error (.previousAction (String.ofList field))

/-- The sequence number of an observation, which may be left out or empty. -/
def readSequence : Option (List Char) → Except Malformed (Option UInt64)
  | none => .ok none
  | some [] => .ok none
  | some field =>
    match sequence? field with
    | some n => .ok (some n)
    | none => .error (.observationSequence (String.ofList field))

/-- Reading an observation. -/
def Observation.decode (payload : List UInt8) : Except Malformed Observation :=
  match fields? payload with
  | none => .error .notAscii
  | some (device :: previous :: rest) =>
    if maxObservationFields < rest.length + 2 then .error (.observationFields (rest.length + 2))
    else do
      let device ← readDevice device
      let previous ← readPrevious previous
      let sequence ← readSequence rest[2]?
      return ⟨device, previous, ⟨rest[0]?.bind delivery?, rest[1]?.bind Decimal.float?⟩, sequence⟩
  | some short => .error (.observationFields short.length)

/-- Reading a decision. -/
def Decision.decode (payload : List UInt8) : Except Malformed Decision :=
  match fields? payload with
  | none => .error .notAscii
  | some (device :: action :: rest) =>
    if 1 < rest.length then .error (.decisionFields (rest.length + 2))
    else do
      let device ← readDevice device
      let action ← match action? action with
        | some a => .ok a
        | none => .error (.action (String.ofList action))
      let sequence ← match rest with
        | [] => .ok none
        | field :: _ =>
          match sequence? field with
          | some n => .ok (some n)
          | none => .error (.decisionSequence (String.ofList field))
      return ⟨device, action, sequence⟩
  | some short => .error (.decisionFields short.length)

end LinkTuner.Wire

import LinkTuner.Text.Blank
import LinkTuner.Text.Hex

/-!
# Devices and sessions

A device is known by the name it reports; a session is one connection, known by sixteen bytes.
-/

namespace LinkTuner

/-- The name of an end device. -/
structure DeviceId where
  text : String
  deriving DecidableEq, Repr, Inhabited

namespace DeviceId

/-- The most bytes that a name may have. -/
def maxLength : Nat := 64

/-- Whether a character may stand in a name: names travel between commas, and fields are trimmed. -/
def allows (c : Char) : Bool := c != ',' && !Text.isBlank c && !Text.isControl c

/-- Whether text is a name that can be sent. -/
def isValid (raw : String) : Bool :=
  !raw.isEmpty && raw.utf8ByteSize ≤ maxLength && raw.toList.all allows

/-- The device of a given name, unless the name cannot be sent. -/
def ofText? (raw : String) : Option DeviceId :=
  if isValid raw then some ⟨raw⟩ else none

/-- What is said of a name that cannot be sent. -/
def refusal (raw : String) : String := "invalid device id: " ++ Text.quote raw

theorem ofText?_eq_some_iff {raw : String} {id : DeviceId} :
    ofText? raw = some id ↔ isValid raw = true ∧ id.text = raw := by
  cases id
  simp only [ofText?, Option.ite_none_right_eq_some, Option.some.injEq, mk.injEq]
  exact and_congr_right fun _ => eq_comm

end DeviceId

/-- One connection. -/
structure SessionId where
  bytes : Vector UInt8 16
  deriving DecidableEq, Repr

namespace SessionId

/-- The session whose bytes all have one value. -/
def uniform (b : UInt8) : SessionId := ⟨.replicate 16 b⟩

/-- The session of sixteen bytes. -/
def ofBytes? (bs : List UInt8) : Option SessionId :=
  if h : bs.length = 16 then some ⟨⟨bs.toArray, by simpa using h⟩⟩ else none

/-- How a session is shown: by its first four bytes. -/
def display (s : SessionId) : String := "sess:" ++ Text.hexOfBytes (s.bytes.toList.take 4)

/-- The sixteen bytes in groups of four, two, two, two and six. -/
def dashed (s : SessionId) : String :=
  let bs := s.bytes.toList
  "-".intercalate
    [Text.hexOfBytes (bs.take 4), Text.hexOfBytes ((bs.drop 4).take 2),
      Text.hexOfBytes ((bs.drop 6).take 2), Text.hexOfBytes ((bs.drop 8).take 2),
      Text.hexOfBytes (bs.drop 10)]

/-- Reading the groups. -/
def ofDashed? (cs : List Char) : Option SessionId :=
  match Text.split '-' cs with
  | [a, b, c, d, e] =>
    if a.length = 8 ∧ b.length = 4 ∧ c.length = 4 ∧ d.length = 4 ∧ e.length = 12 then
      (Text.bytesOfHex? (a ++ b ++ c ++ d ++ e)).bind ofBytes?
    else none
  | _ => none

/-- What follows `start`, which is in lower case, if the text begins with it in any case. -/
def after? (start cs : List Char) : Option (List Char) :=
  if (cs.take start.length).map Char.toLower = start then some (cs.drop start.length) else none

/-- Reading a session: thirty-two digits, or in groups, alone, in braces or as a name of the
`uuid` kind. -/
def ofText? (text : String) : Option SessionId :=
  let cs := text.toList
  if cs.length = 32 then (Text.bytesOfHex? cs).bind ofBytes?
  else if cs.length = 36 then ofDashed? cs
  else if cs.length = 38 then
    if cs.head? = some '\x7b' ∧ cs.getLast? = some '\x7d' then ofDashed? (cs.drop 1).dropLast
    else none
  else (after? "urn:uuid:".toList cs).bind fun rest =>
    if rest.length = 36 then ofDashed? rest else none

end SessionId

end LinkTuner

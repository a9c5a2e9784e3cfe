import LinkTuner.Decimal.Read
import LinkTuner.Text.Blank
import LinkTuner.Text.Hex

/-!
# Addresses

An address is a host and a port with a colon between them. A host is numeric or a name. No name but
that of the machine itself can be looked up, and of the numeric hosts only those that every machine
answers to can be listened on.
-/

namespace LinkTuner.Wire

/-- What is wrong with an address. -/
inductive AddressFault where
  | noPort
  | badPort
  /-- The host is neither numeric nor a name. -/
  | noName
  /-- The name cannot be looked up. -/
  | unknownName
  /-- The host is another machine. -/
  | foreign
  deriving DecidableEq, Repr

/-- The wording of such a fault. -/
def AddressFault.message : AddressFault → String
  | .noPort => "invalid socket address"
  | .badPort => "invalid port value"
  | .noName => "failed to lookup address information: Name or service not known"
  | .unknownName => "failed to lookup address information: Temporary failure in name resolution"
  | .foreign => "Cannot assign requested address (os error 99)"

/-- What a host is. -/
inductive Host where
  /-- One that every machine answers to. -/
  | here
  /-- A numeric host of another machine. -/
  | elsewhere
  /-- A name that is not known. -/
  | name
  /-- Nothing that could be a host. -/
  | malformed
  deriving DecidableEq, Repr

/-- A part of a numeric host: of base sixteen after `0x`, of base eight after `0`, else of base
ten. -/
def hostPart? : List Char → Option Nat
  | [] | ['0', 'x'] | ['0', 'X'] => none
  | '0' :: 'x' :: cs | '0' :: 'X' :: cs => Text.numberIn? 16 cs
  | '0' :: cs => Text.numberIn? 8 cs
  | cs => Text.numberIn? 10 cs

/-- The number of four bytes that the parts of a numeric host stand for: each is a byte but the last
one, which fills the bytes that are left. -/
def joined? : Nat → List Nat → Option Nat
  | _, [] => none
  | bytes, [last] => if last < Decimal.twoTo (8 * bytes) then some last else none
  | bytes, part :: parts =>
    if part < 256 then
      (joined? (bytes - 1) parts).map (part * Decimal.twoTo (8 * (bytes - 1)) + ·)
    else none

/-- The number of a numeric host. -/
def numeric? (host : List Char) : Option Nat := do
  let parts ← (Text.split '.' host).mapM hostPart?
  if parts.length ≤ 4 then joined? 4 parts else none

/-- Whether every machine answers to a number: the one of no machine, those of the machine itself,
those of groups and the one of all machines. -/
def isHere (number : Nat) : Bool :=
  let first := number / 0x1000000
  number == 0 || first == 127 || (224 ≤ first && first ≤ 239) || number == 0xffffffff

/-- Whether text is a name: labels of at most sixty-three letters, digits, underlines and hyphens,
the first of which is no hyphen, with points between them and perhaps one at the end. -/
def isName (host : List Char) : Bool :=
  let labels := Text.split '.' host
  let labels := if labels.getLast? == some [] then labels.dropLast else labels
  let isLabel (label : List Char) : Bool :=
    !label.isEmpty && label.length ≤ 63 &&
      label.all fun c => c.isAlphanum || c == '-' || c == '_'
  !host.isEmpty && host.length ≤ 254 && host.head? != some '-' &&
    (host == ['.'] || labels.all isLabel)

/-- What a host of the longer numeric form is. -/
def Host.ofColons (host : List Char) : Host :=
  if host == "::".toList || host == "::1".toList then .here
  else if 2 ≤ (host.filter (· == ':')).length &&
      host.all fun c => c == ':' || (Text.hexValue? c).isSome then .elsewhere
  else .malformed

/-- What a host is. The longer numeric form may stand in brackets. -/
def Host.ofChars (host : List Char) : Host :=
  match numeric? host with
  | some number => if isHere number then .here else .elsewhere
  | none =>
    if host.head? == some '[' && host.getLast? == some ']' then
      .ofColons (host.drop 1).dropLast
    else if host.contains ':' then .ofColons host
    else if Decimal.lower host == "localhost".toList then .here
    else if isName host then .name
    else .malformed

/-- The host of an address, unless the form of the address is wrong. The port follows the last
colon. -/
def hostOf (address : String) : Except AddressFault Host :=
  match (Text.split ':' address.toList).reverse with
  | port :: first :: more =>
    if (Decimal.unsigned? UInt16.size port).isNone then .error .badPort
    else .ok (.ofChars (Text.join ':' (first :: more).reverse))
  | _ => .error .noPort

/-- Why an address cannot be reached, if there is a reason. -/
def reachFault? (address : String) : Option AddressFault :=
  match hostOf address with
  | .error fault => some fault
  | .ok .malformed => some .noName
  | .ok .name => some .unknownName
  | .ok .here | .ok .elsewhere => none

/-- Why an address cannot be listened on, if there is a reason. -/
def listenFault? (address : String) : Option AddressFault :=
  match hostOf address with
  | .ok .elsewhere => some .foreign
  | _ => reachFault? address

end LinkTuner.Wire

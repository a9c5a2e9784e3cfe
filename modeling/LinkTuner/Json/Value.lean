import LinkTuner.Decimal.Format
import LinkTuner.Text.Quoted

/-!
# JSON values and their compact text

Members of an object keep their order and may repeat. Numbers keep the text they are written with,
so that nothing is decided about their size before it is known what they are for. In the same way
a string is kept as `none` when one of its escapes is half of a character: such a string can be
passed over but not read.
-/

namespace LinkTuner.Json

/-- A JSON value. -/
inductive Value where
  | null
  | bool (b : Bool)
  | number (text : String)
  | string (text : Option String)
  | array (elements : List Value)
  | object (members : List (Option String × Value))
  deriving Repr, Inhabited

namespace Value

/-- A string that is text. -/
def text (s : String) : Value := .string (some s)

/-- A whole number. -/
def nat (n : Nat) : Value := .number (Decimal.textOfNat n)

/-- A whole number with its sign. -/
def int (n : Int) : Value := .number (Decimal.textOfInt n)

/-- Whether a double is neither infinite nor undefined. -/
def isFiniteNumber (x : Float) : Bool :=
  match Decimal.Binary.ofBits (Decimal.bitsOf x) with
  | .finite _ _ _ => true
  | _ => false

/-- A double; JSON has no number for one that is not finite. -/
def float (x : Float) : Value :=
  if isFiniteNumber x then .number (Decimal.textIn .json x) else .null

/-- An object with the members given. -/
def record (members : List (String × Value)) : Value :=
  .object (members.map fun (k, v) => (some k, v))

/-- A value that may be missing. -/
def optional {α : Type} (f : α → Value) : Option α → Value
  | none => .null
  | some a => f a

end Value

/-- One character of a string: quotation marks, reverse solidus and controls are escaped. -/
def escapeChar (c : Char) : List Char :=
  if c = '"' then ['\\', '"']
  else if c = '\\' then ['\\', '\\']
  else if c = '\x08' then ['\\', 'b']
  else if c = '\x0c' then ['\\', 'f']
  else if c = '\n' then ['\\', 'n']
  else if c = '\r' then ['\\', 'r']
  else if c = '\t' then ['\\', 't']
  else if c.toNat < 0x20 then
    ['\\', 'u', '0', '0', Text.hexDigit (c.toNat / 16), Text.hexDigit (c.toNat % 16)]
  else [c]

/-- A string between its quotation marks. One that cannot be read is written empty. -/
def stringText (s : Option String) : List Char :=
  '"' :: (s.getD "").toList.flatMap escapeChar ++ ['"']

mutual

/-- The compact text of a value, without any white space. -/
def render : Value → List Char
  | .null => "null".toList
  | .bool true => "true".toList
  | .bool false => "false".toList
  | .number text => text.toList
  | .string s => stringText s
  | .array elements => '[' :: renderElements elements ++ [']']
  | .object members => '\x7b' :: renderMembers members ++ ['\x7d']

/-- Elements with a comma between each two neighbours. -/
def renderElements : List Value → List Char
  | [] => []
  | [v] => render v
  | v :: w :: vs => render v ++ ',' :: renderElements (w :: vs)

/-- Members with a comma between each two neighbours. -/
def renderMembers : List (Option String × Value) → List Char
  | [] => []
  | [(k, v)] => stringText k ++ ':' :: render v
  | (k, v) :: m :: ms => stringText k ++ ':' :: render v ++ ',' :: renderMembers (m :: ms)

end

/-- The compact text of a value. -/
def Value.render (v : Value) : String := String.ofList (Json.render v)

end LinkTuner.Json

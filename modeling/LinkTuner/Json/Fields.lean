import LinkTuner.Json.Value
import LinkTuner.Decimal.Read

/-!
# Reading data out of JSON values

A record is written as an object, or as an array of all its fields in order. In an object unknown
members are passed over and a known one may stand only once. How the text of a number is turned into
a double is left open; the instance takes the nearest one.
-/

namespace LinkTuner.Json

/-- A whole number below `limit`. The text of a negative zero is no whole number. -/
def Value.nat? (limit : Nat) : Value → Option Nat
  | .number text => (Decimal.natural? text.toList).filter (· < limit)
  | _ => none

/-- A whole number from `-limit` up to `limit`, the latter excluded. -/
def Value.int? (limit : Nat) : Value → Option Int
  | .number text =>
    match text.toList with
    | '-' :: ds =>
      ((Decimal.natural? ds).filter fun n => 0 < n && n ≤ limit).map fun n => -(n : Int)
    | ds => ((Decimal.natural? ds).filter (· < limit)).map Int.ofNat
  | _ => none

/-- The bits of the double nearest to a number. A number too large for a double is refused. -/
def numberBits? (text : List Char) : Option Nat :=
  ((match text with
    | '-' :: ds => Decimal.literal? true ds
    | ds => Decimal.literal? false ds).map Decimal.Literal.bits).filter fun bits =>
      bits % Decimal.signBit != Decimal.infinityBits

/-- How the text of a number, whole or not, is read as a double. -/
class NumberReader where
  double? : List Char → Option Float

/-- Reading a number as the double nearest to it. -/
instance NumberReader.nearest : NumberReader where
  double? text := (numberBits? text).map Decimal.ofBits

/-- A double. -/
def Value.float? [NumberReader] : Value → Option Float
  | .number text => NumberReader.double? text.toList
  | _ => none

/-- Text. -/
def Value.text? : Value → Option String
  | .string s => s
  | _ => none

/-- A truth value. -/
def Value.bool? : Value → Option Bool
  | .bool b => some b
  | _ => none

/-- A value that may be missing. -/
def Value.optional? {α : Type} (read : Value → Option α) : Value → Option (Option α)
  | .null => some none
  | v => (read v).map some

/-- A list of values of one kind. -/
def Value.list? {α : Type} (read : Value → Option α) : Value → Option (List α)
  | .array vs => vs.mapM read
  | _ => none

/-- The fields of a record as they were found, in the order of their names. -/
structure Fields where
  /-- Whether the record was written as an array. -/
  ordered : Bool
  entries : List (Option Value)

/-- The only value under a name, if there is one; nothing at all if there are several. -/
def only? (name : String) (members : List (Option String × Value)) : Option (Option Value) :=
  match members.filter fun m => m.1 == some name with
  | [] => some none
  | [m] => some (some m.2)
  | _ => none

/-- Finding the fields of a record. -/
def Value.fields? (names : List String) : Value → Option Fields
  | .object members =>
    if members.all (fun m => m.1.isSome) then
      (names.mapM (only? · members)).map (⟨false, ·⟩)
    else none
  | .array vs =>
    if vs.length ≤ names.length then
      some ⟨true, vs.map some ++ List.replicate (names.length - vs.length) none⟩
    else none
  | _ => none

namespace Fields

variable {α : Type}

/-- The field in the place given, as it was found. -/
def entry (f : Fields) (i : Nat) : Option Value := (f.entries[i]?).join

/-- A field that must be there. -/
def required (f : Fields) (i : Nat) (read : Value → Option α) : Option α :=
  (f.entry i).bind read

/-- A field that may be left out of an object, or be null. -/
def optional (f : Fields) (i : Nat) (read : Value → Option α) : Option (Option α) :=
  match f.entry i with
  | none => if f.ordered then none else some none
  | some v => v.optional? read

/-- A field with a value of its own when it is left out. -/
def withDefault (f : Fields) (i : Nat) (default : α) (read : Value → Option α) : Option α :=
  match f.entry i with
  | none => some default
  | some v => read v

end Fields

mutual

/-- Whether all of a value can be read: every string is text, no number is too large and nothing
is nested deeper than `depth`. -/
def Value.isReadable [NumberReader] (depth : Nat) : Value → Bool
  | .number text => (NumberReader.double? text.toList).isSome
  | .string s => s.isSome
  | .array vs =>
    match depth with
    | 0 => false
    | depth + 1 => allReadable depth vs
  | .object ms =>
    match depth with
    | 0 => false
    | depth + 1 => membersReadable depth ms
  | _ => true

/-- Whether all elements can be read. -/
def allReadable [NumberReader] (depth : Nat) : List Value → Bool
  | [] => true
  | v :: vs => v.isReadable depth && allReadable depth vs

/-- Whether all members can be read. -/
def membersReadable [NumberReader] (depth : Nat) : List (Option String × Value) → Bool
  | [] => true
  | (k, v) :: ms => k.isSome && v.isReadable depth && membersReadable depth ms

end

end LinkTuner.Json

import LinkTuner.Decimal.Natural
import LinkTuner.Decimal.Binary

/-!
# Reading a double

A decimal number is read exactly and then rounded once, to the nearest double. `Literal` is a
number taken apart into the digits before and after the point and the exponent; the grammars of
messages and of JSON differ only in which literals they admit.
-/

namespace LinkTuner.Decimal

/-- A decimal number as it is written: `whole.fraction` times ten to the `exponent`. -/
structure Literal where
  negative : Bool
  whole : List Char
  fraction : List Char
  exponent : Int
  deriving DecidableEq, Repr

/-- The bits of zero and of infinity with a sign. -/
def signed (negative : Bool) (bits : Nat) : Nat := if negative then signBit + bits else bits

/-- Leading zeros do not count. -/
def significant (cs : List Char) : List Char := cs.dropWhile (· == '0')

/-- The bits of the double nearest to `ds * 10 ^ exponent`. Powers far outside the range of
doubles are not raised: from `10 ^ 400` on the result is infinity, below `10 ^ (-400)` zero. -/
def nearestScaled (ds : List Char) (exponent : Int) : Nat :=
  let ds := significant ds
  match natural? ds with
  | none => 0
  | some n =>
    let first := exponent + ds.length
    if 400 < first then infinityBits
    else if first < -400 then 0
    else nearest (n * tenTo exponent.toNat) (tenTo (-exponent).toNat)

/-- The bits of the double nearest to a literal. -/
def Literal.bits (l : Literal) : Nat :=
  signed l.negative (nearestScaled (l.whole ++ l.fraction) (l.exponent - l.fraction.length))

/-- A sign and what follows it. -/
def takeSign : List Char → Bool × List Char
  | '-' :: cs => (true, cs)
  | '+' :: cs => (false, cs)
  | cs => (false, cs)

/-- Whether a character is a digit. -/
def isDigit (c : Char) : Bool := (digitValue? c).isSome

/-- An exponent part, from its mark on, or nothing. -/
def exponentPart? : List Char → Option Int
  | [] => some 0
  | c :: cs =>
    if c = 'e' ∨ c = 'E' then
      let (negative, ds) := takeSign cs
      (natural? ds).map fun n => if negative then -(n : Int) else n
    else none

/-- A literal with a point anywhere or none and at least one digit: `5`, `5.`, `.5`, `1e-3`. -/
def literal? (negative : Bool) (cs : List Char) : Option Literal :=
  let whole := cs.takeWhile isDigit
  let (fraction, tail) := match cs.dropWhile isDigit with
    | '.' :: rest => (rest.takeWhile isDigit, rest.dropWhile isDigit)
    | rest => ([], rest)
  if whole.isEmpty && fraction.isEmpty then none
  else (exponentPart? tail).map (⟨negative, whole, fraction, ·⟩)

/-- A letter in lower case; other characters stay. -/
def lower (cs : List Char) : List Char := cs.map Char.toLower

/-- The bits of a double written with all the freedom of messages: a sign, the words `inf`,
`infinity` and `nan` in any case, or a literal. -/
def bits? (cs : List Char) : Option Nat :=
  let (negative, rest) := takeSign cs
  let word := String.ofList (lower rest)
  if word = "inf" ∨ word = "infinity" then some (signed negative infinityBits)
  else if word = "nan" then some (signed negative undefinedBits)
  else (literal? negative rest).map Literal.bits

/-- The double with the given bits. -/
def ofBits (bits : Nat) : Float := Float.ofBits (UInt64.ofNat bits)

/-- Reading a double. -/
def float? (cs : List Char) : Option Float := (bits? cs).map ofBits

end LinkTuner.Decimal

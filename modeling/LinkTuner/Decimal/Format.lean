import LinkTuner.Decimal.Natural
import LinkTuner.Decimal.Shortest

/-!
# The written forms of a double

One function writes every form; a `Style` says where positional notation ends, how a whole number
is marked and how the exponent is spelled. The digits are always the shortest that read back,
except in `scientific`, which shows nine places after the point.
-/

namespace LinkTuner.Decimal

/-- What a written form decides. -/
structure Style where
  /-- The least and the greatest power of ten of the first digit that is written positionally;
  `none` where every number is. -/
  positional : Option (Int × Int)
  /-- What follows a whole number written positionally. -/
  wholeMark : String
  /-- The sign of an exponent that is not negative. -/
  plusSign : String
  infinity : String
  notANumber : String
  tie : Tie

/-- Numbers in messages and in answers: always positional, whole numbers without a point. Of two
equally near numbers the greater is taken. -/
def Style.message : Style := ⟨none, "", "", "inf", "NaN", .up⟩

/-- Numbers in JSON: whole numbers keep a zero after the point, the first digit from `10 ^ (-5)`
to `10 ^ 15` is positional. Of two equally near numbers the even one is taken. There is no text for
what is not finite but `null`. -/
def Style.json : Style := ⟨some (-5, 15), ".0", "+", "null", "null", .even⟩

/-- Numbers in a configuration file: always positional, with a zero after the point. -/
def Style.settings : Style := ⟨none, ".0", "", "inf", "nan", .up⟩

/-- `ds * 10 ^ exponent` without an exponent. -/
def positionalText (style : Style) (ds : List Char) (exponent : Int) : List Char :=
  if 0 ≤ exponent then ds ++ List.replicate exponent.toNat '0' ++ style.wholeMark.toList
  else
    let places := (-exponent).toNat
    if places < ds.length then
      ds.take (ds.length - places) ++ '.' :: ds.drop (ds.length - places)
    else '0' :: '.' :: List.replicate (places - ds.length) '0' ++ ds

/-- An exponent with its sign. -/
def exponentText (style : Style) (e : Int) : List Char :=
  if e < 0 then 'e' :: '-' :: digits e.natAbs
  else 'e' :: style.plusSign.toList ++ digits e.natAbs

/-- `ds * 10 ^ exponent` with one digit before the point. -/
def exponentialText (style : Style) (ds : List Char) (exponent : Int) : List Char :=
  let e := exponent + ((ds.length : Int) - 1)
  (match ds with
    | [] => []
    | [d] => [d]
    | d :: rest => d :: '.' :: rest) ++ exponentText style e

/-- The text of a magnitude. -/
def magnitudeText (style : Style) (m : Nat) (e : Int) : List Char :=
  if m = 0 then '0' :: style.wholeMark.toList
  else
    let s := shortest style.tie m e
    let ds := digits s.digits
    let first := s.exponent + ((ds.length : Int) - 1)
    match style.positional with
    | none => positionalText style ds s.exponent
    | some (least, most) =>
      if least ≤ first ∧ first ≤ most then positionalText style ds s.exponent
      else exponentialText style ds s.exponent

/-- Text after its sign. -/
def withSign (negative : Bool) (cs : List Char) : List Char :=
  if negative then '-' :: cs else cs

/-- The text of the double with the given bits. -/
def textOfBits (style : Style) (bits : Nat) : List Char :=
  match Binary.ofBits bits with
  | .notANumber => style.notANumber.toList
  | .infinite negative => withSign negative style.infinity.toList
  | .finite negative m e => withSign negative (magnitudeText style m e)

/-- The text of a double in the given style. -/
def textIn (style : Style) (x : Float) : String := String.ofList (textOfBits style (bitsOf x))

/-- The text of a double in messages and answers. -/
def text (x : Float) : String := textIn .message x

/-- A double with nine places after the point and an exponent, for numbers whose last digits are
not to be relied on. -/
def scientific (x : Float) : String :=
  match Binary.ofBits (bitsOf x) with
  | .notANumber => "NaN"
  | .infinite negative => if negative then "-inf" else "inf"
  | .finite negative m e =>
    let (ds, first) :=
      if m = 0 then (List.replicate 10 '0', 0)
      else
        let (n, d) := scaleByTwo m 1 (-e)
        let s := rounded 10 n d
        (digits s.digits, s.exponent + 9)
    String.ofList (withSign negative
      (ds.take 1 ++ '.' :: ds.drop 1 ++ exponentText .message first))

end LinkTuner.Decimal

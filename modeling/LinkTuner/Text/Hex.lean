import LinkTuner.Text.Quoted

/-!
# Bytes in base sixteen

Two lower case digits for each byte; reading takes either case and refuses anything else.
-/

namespace LinkTuner.Text

/-- The two digits of a byte. -/
def hexOfByte (b : UInt8) : List Char :=
  [hexDigit (b.toNat / 16), hexDigit (b.toNat % 16)]

/-- The digits of a list of bytes. -/
def hexOfBytes (bs : List UInt8) : String := String.ofList (bs.flatMap hexOfByte)

/-- The value of a digit of either case. -/
def hexValue? (c : Char) : Option Nat :=
  let n := c.toNat
  if 48 ≤ n && n ≤ 57 then some (n - 48)
  else if 97 ≤ n && n ≤ 102 then some (n - 87)
  else if 65 ≤ n && n ≤ 70 then some (n - 55)
  else none

/-- The bytes that an even number of digits stands for. -/
def bytesOfHex? : List Char → Option (List UInt8)
  | [] => some []
  | [_] => none
  | a :: b :: rest => do
    let high ← hexValue? a
    let low ← hexValue? b
    let bytes ← bytesOfHex? rest
    return UInt8.ofNat (16 * high + low) :: bytes

/-- The number that digits of a base up to sixteen stand for, the most significant first; without
digits it is zero. -/
def numberIn? (base : Nat) (cs : List Char) : Option Nat :=
  cs.foldlM (fun n c => ((hexValue? c).filter (· < base)).map (base * n + ·)) 0

/-- The number that hexadecimal digits stand for. -/
def hexNumber? (cs : List Char) : Option Nat := numberIn? 16 cs

end LinkTuner.Text

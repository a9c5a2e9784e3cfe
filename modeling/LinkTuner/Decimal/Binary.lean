/-!
# Doubles as whole numbers times powers of two

A double is read off its 64 bits: a sign, and a whole number below `2 ^ 53` times a power of two.
The other direction, `nearest`, gives the bits of the double closest to a quotient of two whole
numbers; of two equally close ones it takes the one whose last bit is zero.
-/

namespace LinkTuner.Decimal

/-- What the 64 bits of a double say. A finite value is `mantissa * 2 ^ exponent`. -/
inductive Binary where
  | notANumber
  | infinite (negative : Bool)
  | finite (negative : Bool) (mantissa : Nat) (exponent : Int)
  deriving DecidableEq, Repr

/-- The place of the sign bit. -/
def signBit : Nat := 0x8000000000000000

/-- The bits of positive infinity, above which only the codes of no number lie. -/
def infinityBits : Nat := 0x7ff0000000000000

/-- The bits of the undefined number that is written. -/
def undefinedBits : Nat := 0x7ff8000000000000

/-- `2 ^ 52`, the value of the first of the 53 digits of a double, which is left out of its bits. -/
def hiddenBit : Nat := 0x10000000000000

/-- A power of two. -/
def twoTo (n : Nat) : Nat := Nat.pow 2 n

/-- A power of ten. -/
def tenTo (n : Nat) : Nat := Nat.pow 10 n

/-- Taking the bits apart. -/
def Binary.ofBits (bits : Nat) : Binary :=
  let negative := signBit ≤ bits
  let magnitude : Nat := bits % signBit
  let scale : Nat := magnitude / hiddenBit
  let fraction : Nat := magnitude % hiddenBit
  if infinityBits < magnitude then .notANumber
  else if magnitude = infinityBits then .infinite negative
  else if scale = 0 then .finite negative fraction (-1074)
  else .finite negative (hiddenBit + fraction) ((scale : Int) - 1075)

/-- The bits of a double as a number. -/
def bitsOf (x : Float) : Nat := x.toBits.toNat

/-- The whole number nearest to a quotient, of two equally near ones the even one. -/
def roundDiv (num den : Nat) : Nat :=
  let q := num / den
  let r := num % den
  if 2 * r < den then q
  else if den < 2 * r then q + 1
  else if q % 2 = 0 then q else q + 1

/-- `num / den * 2 ^ (-e)` as a quotient of whole numbers. -/
def scaleByTwo (num den : Nat) (e : Int) : Nat × Nat :=
  (num * twoTo (-e).toNat, den * twoTo e.toNat)

/-- The bits of the double nearest to `num / den`, for `den` positive. Beyond the largest double
this is infinity. -/
def nearest (num den : Nat) : Nat :=
  if num = 0 then 0
  else
    let guess : Int := max ((num.log2 : Int) - (den.log2 : Int) - 53) (-1074)
    let (n, d) := scaleByTwo num den guess
    let e := if d * (2 * hiddenBit) ≤ n then guess + 1 else guess
    let (n, d) := scaleByTwo num den e
    min ((e + 1074).toNat * hiddenBit + roundDiv n d) infinityBits

theorem roundDiv_of_dvd {num den : Nat} (h : den ∣ num) (hd : 0 < den) :
    roundDiv num den = num / den := by
  simp [roundDiv, Nat.mod_eq_zero_of_dvd h, hd]

end LinkTuner.Decimal

import LinkTuner.Decimal.Binary

/-!
# Decimal digits of a double

`shortest` gives the fewest digits that read back as the same double, and of those the nearest to
it; `rounded` gives a fixed number of digits. Both work on the exact value `m * 2 ^ e`.

The doubles next to a given one bound the interval of the numbers that read back as it. Its ends
belong to it when the last bit of the double is zero, since a tie goes to the even neighbour. If
a point of a decimal grid lies in the interval then so does one of the two grid points around the
value, so it is enough to try those, from the coarsest grid on.
-/

namespace LinkTuner.Decimal

/-- A decimal number `digits * 10 ^ exponent`. -/
structure Scaled where
  digits : Nat
  exponent : Int
  deriving DecidableEq, Repr

/-- `n / d * 10 ^ (-t)` as a quotient of whole numbers. -/
def scaleByTen (n d : Nat) (t : Int) : Nat × Nat :=
  (n * tenTo (-t).toNat, d * tenTo t.toNat)

/-- The least number from `k` on, at most `turns` steps away, that `10` must be raised to for a
power above `n / d`. -/
def magnitudeFrom (n d : Nat) : Nat → Int → Int
  | 0, k => k
  | turns + 1, k =>
    let (n', d') := scaleByTen n d k
    if d' ≤ n' then magnitudeFrom n d turns (k + 1) else k

/-- The number `k` with `10 ^ (k - 1) ≤ n / d < 10 ^ k`. -/
def magnitude (n d : Nat) : Int :=
  let twos : Int := (n.log2 : Int) - (d.log2 : Int)
  magnitudeFrom n d 5 (Int.fdiv (twos * 1233) 4096 - 1)

/-- Dropping the zeros at the end of the digits, at most `turns` of them. -/
def Scaled.trimmed : Nat → Scaled → Scaled
  | 0, s => s
  | turns + 1, s =>
    if s.digits % 10 = 0 ∧ s.digits ≠ 0 then
      Scaled.trimmed turns ⟨s.digits / 10, s.exponent + 1⟩
    else s

/-- The numbers that read back as one double, in units that make both ends whole: from `low` to
`high` around `value`, the unit being `unitNum / unitDen`. -/
structure Interval where
  low : Nat
  value : Nat
  high : Nat
  closed : Bool
  unitNum : Nat
  unitDen : Nat

/-- The interval around `m * 2 ^ e`. Below a power of two the neighbour is half as far away. -/
def Interval.around (m : Nat) (e : Int) : Interval :=
  let low := if m = hiddenBit ∧ -1074 < e then 4 * m - 1 else 4 * m - 2
  let (num, den) := scaleByTwo 1 1 (2 - e)
  ⟨low, 4 * m, 4 * m + 2, m % 2 = 0, num, den⟩

/-- Whether the grid point `c * 10 ^ t` reads back. -/
def Interval.holds (i : Interval) (t : Int) (c : Nat) : Bool :=
  let (num, den) := scaleByTen i.unitNum i.unitDen t
  let point := c * den
  if i.closed then i.low * num ≤ point && point ≤ i.high * num
  else i.low * num < point && point < i.high * num

/-- Which of two neighbours on a grid is taken when the value lies in the middle. -/
inductive Tie where
  | up
  | even
  deriving DecidableEq, Repr

/-- Whether the lower neighbour is taken, which lies `rest` below the value on a grid of step
`den`. -/
def Tie.takesBelow (tie : Tie) (below rest den : Nat) : Bool :=
  2 * rest < den || (2 * rest == den && tie == .even && below % 2 == 0)

/-- The nearer of the two points around the value on the grid of step `10 ^ t`, if one of them
reads back. -/
def Interval.onGrid (i : Interval) (tie : Tie) (t : Int) : Option Nat :=
  let (num, den) := scaleByTen i.unitNum i.unitDen t
  let below := i.value * num / den
  let rest := i.value * num % den
  match i.holds t below, i.holds t (below + 1) with
  | true, true => some (if tie.takesBelow below rest den then below else below + 1)
  | true, false => some below
  | false, true => some (below + 1)
  | false, false => none

/-- The first grid with a point that reads back, from the step `10 ^ t` on downwards. -/
def Interval.search (i : Interval) (tie : Tie) : Nat → Int → Scaled
  | 0, t => ⟨i.value * (scaleByTen i.unitNum i.unitDen t).1 /
      (scaleByTen i.unitNum i.unitDen t).2, t⟩
  | turns + 1, t =>
    match i.onGrid tie t with
    | some c => ⟨c, t⟩
    | none => i.search tie turns (t - 1)

/-- The fewest digits that read back as `m * 2 ^ e`, for `m` positive. Seventeen are always
enough. -/
def shortest (tie : Tie) (m : Nat) (e : Int) : Scaled :=
  let i := Interval.around m e
  let k := magnitude (i.value * i.unitNum) i.unitDen
  (i.search tie 17 (k - 1)).trimmed 17

/-- `n / d` with `count` digits, for both positive; a tie goes to the even digit. -/
def rounded (count : Nat) (n d : Nat) : Scaled :=
  let t := magnitude n d - count
  let (num, den) := scaleByTen n d t
  let c := roundDiv num den
  if c = tenTo count then ⟨c / 10, t + 1⟩ else ⟨c, t⟩

end LinkTuner.Decimal

import LinkTuner.Decimal.Binary

/-!
# The arithmetic of rewards and strategies

Rewards and strategies are written once, over any numbers with the operations below. The program
runs them over doubles; read over exact numbers they are the formulas that the doubles follow.
-/

namespace LinkTuner

/-- Numbers that rewards and strategies calculate with. Comparisons answer a truth value, since
with doubles a number that is undefined is neither below, equal to nor above any other. -/
class Arith (α : Type) extends Zero α, One α, Add α, Sub α, Mul α, Div α, Neg α, NatCast α where
  lt : α → α → Bool
  le : α → α → Bool
  /-- An order in which any two numbers can be compared. -/
  totalLe : α → α → Bool
  isUndefined : α → Bool
  isFinite : α → Bool
  exp : α → α

namespace Arith

variable {α : Type} [Arith α]

/-- Numerical equality, by which both zeros are equal and an undefined number is equal to none. -/
def same (x y : α) : Bool := le x y && le y x

/-- The greater of two numbers, the defined one if only one is; the second one if they are equal, as
the zeros are. -/
def greater (x y : α) : α := if isUndefined y || lt y x then x else y

/-- The number of an interval that is nearest to `x`. -/
def clamp (low high x : α) : α :=
  if lt x low then low else if lt high x then high else x

/-- The sum from left to right; of no numbers it is zero. -/
def sum : List α → α
  | [] => 0
  | x :: xs => xs.foldl (· + ·) x

/-- The greatest of the numbers that are defined; of no numbers it is zero. -/
def greatest : List α → α
  | [] => 0
  | x :: xs => xs.foldl greater x

end Arith

/-- The index of the last of the greatest elements, seen through an order. -/
def lastGreatest {α : Type} (le : α → α → Bool) : List α → Option Nat
  | [] => none
  | x :: xs =>
    some (xs.foldl (fun (best : Nat × α × Nat) y =>
      let next := best.2.2 + 1
      if le best.2.1 y then (next, y, next) else (best.1, best.2.1, next)) (0, x, 0)).1

/-- The place of a double, given by its bits, in the total order of doubles: undefined numbers with
a sign come first, then the numbers in their order with negative zero below zero, then undefined
numbers without a sign. -/
def rankOfBits (bits : Nat) : Nat :=
  if Decimal.signBit ≤ bits then 2 * Decimal.signBit - 1 - bits else Decimal.signBit + bits

instance : Arith Float where
  zero := 0.0
  one := 1.0
  natCast := Float.ofNat
  lt x y := x < y
  le x y := x ≤ y
  totalLe x y := rankOfBits (Decimal.bitsOf x) ≤ rankOfBits (Decimal.bitsOf y)
  isUndefined := Float.isNaN
  isFinite := Float.isFinite
  exp := Float.exp

end LinkTuner

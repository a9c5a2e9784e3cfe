import LinkTuner.Arith
import LinkTuner.Random.ChaCha

/-!
# Drawing from a generator

A strategy needs three kinds of draws: a number of the unit interval, a whole number below a bound,
and an index with given weights. `Drawing` names them, so that a strategy can be read with any
source of chance; the instance draws doubles from the stream of a seed.
-/

namespace LinkTuner.Random

/-- Why nothing can be drawn by weight. -/
inductive WeightsProblem where
  | noItem
  | notComparable
  | allZero
  deriving DecidableEq, Repr

/-- The wording of a problem. -/
def WeightsProblem.message : WeightsProblem → String
  | .noItem => "No weights provided in distribution"
  | .notComparable => "A weight is invalid in distribution"
  | .allZero => "All weights are zero in distribution"

/-- A source of chance `γ` for a strategy that calculates with `α`. -/
class Drawing (α γ : Type) where
  /-- A number from zero up to one, the latter excluded. -/
  unit : γ → α × γ
  /-- A whole number below a bound; nothing can be drawn below zero. -/
  below : Nat → γ → Option (Nat × γ)
  /-- An index, each with a chance in proportion to its weight. -/
  weighted : List α → γ → Except WeightsProblem (Nat × γ)

/-- How often a word is drawn again before the bound is given up. Every turn fails with a chance
below one half. -/
def maxTurns : Nat := 10000

/-- The upper half of a product of words, once the lower half is at most `zone`. -/
def belowFrom (bound zone : Nat) : Nat → Gen → Nat × Gen
  | 0, g => (0, g)
  | turns + 1, g =>
    let (word, g) := g.next
    let product := word.toNat * bound
    if product % UInt64.size ≤ zone then (product / UInt64.size, g) else belowFrom bound zone turns g

/-- A whole number below `bound`: the words are cut to the greatest multiple of the bound that a
power of two of them makes, so each number has the same chance. -/
def drawBelow (bound : Nat) (g : Gen) : Option (Nat × Gen) :=
  if bound = 0 then none
  else
    let zone := bound * Decimal.twoTo (63 - bound.log2) - 1
    some (belowFrom bound zone maxTurns g)

/-- A double of the unit interval with fifty-three random binary digits. -/
def drawUnit (g : Gen) : Float × Gen :=
  let (word, g) := g.next
  ((word >>> 11).toFloat * (1.0 / 9007199254740992.0), g)

/-- Whether a weight can be used at all. -/
def isWeight (w : Float) : Bool := 0.0 ≤ w

/-- The running sums of the weights after `total`, that of all of them apart. -/
def runningSums (total : Float) : List Float → List Float × Float
  | [] => ([], total)
  | w :: ws =>
    let (sums, all) := runningSums (total + w) ws
    (total :: sums, all)

/-- The next double below a positive one. -/
def nextBelow (x : Float) : Float := Float.ofBits (x.toBits - 1)

/-- The greatest scale for which the greatest number of the unit interval, scaled, stays below
`total`. -/
def scaleBelow (total : Float) : Nat → Float → Float
  | 0, scale => scale
  | turns + 1, scale =>
    if total ≤ scale * (1.0 - 1.0 / 4503599627370496.0) then
      scaleBelow total turns (nextBelow scale)
    else scale

/-- A double below `total` with fifty-two random binary digits. -/
def drawScaled (total : Float) (g : Gen) : Float × Gen :=
  let (word, g) := g.next
  let unit := (word >>> 12).toFloat * (1.0 / 4503599627370496.0)
  (unit * scaleBelow total 64 total, g)

/-- An index drawn by weight: as many running sums as the drawn number reaches. -/
def drawWeighted (weights : List Float) (g : Gen) : Except WeightsProblem (Nat × Gen) :=
  match weights with
  | [] => .error .noItem
  | first :: rest =>
    if !weights.all isWeight then .error .notComparable
    else
      let (sums, total) := runningSums first rest
      if total == 0.0 then .error .allZero
      else
        let (x, g) := drawScaled total g
        .ok ((sums.takeWhile (· ≤ x)).length, g)

instance : Drawing Float Gen where
  unit := drawUnit
  below := drawBelow
  weighted := drawWeighted

end LinkTuner.Random

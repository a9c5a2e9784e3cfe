import LinkTuner.Decimal.Natural

/-!
# Spans of time
-/

namespace LinkTuner.Text

/-- The three digits after the point without the zeros at the end. -/
def thousandths (n : Nat) : List Char :=
  ([n / 100, n / 10 % 10, n % 10].map Decimal.digitChar).reverse.dropWhile (· == '0') |>.reverse

/-- A span of milliseconds in the greatest unit of which it holds one. -/
def spanText (ms : Nat) : String :=
  if ms = 0 then "0ns"
  else if ms < 1000 then Decimal.textOfNat ms ++ "ms"
  else
    let rest := thousandths (ms % 1000)
    Decimal.textOfNat (ms / 1000) ++
      (if rest.isEmpty then "" else String.ofList ('.' :: rest)) ++ "s"

end LinkTuner.Text

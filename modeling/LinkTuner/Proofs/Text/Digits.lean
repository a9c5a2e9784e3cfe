import LinkTuner.Text.Hex
import Mathlib.Tactic.IntervalCases

/-!
# Digits in base sixteen

A digit stands for the number that it was written for, in either case, and the four digits of an
escape stand for the code that they were written for.
-/

namespace LinkTuner.Text

theorem hexValue?_hexDigit {n : ℕ} (h : n < 16) : hexValue? (hexDigit n) = some n := by
  interval_cases n <;> rfl

theorem hexValue?_toUpper_hexDigit {n : ℕ} (h : n < 16) :
    hexValue? (hexDigit n).toUpper = some n := by
  interval_cases n <;> rfl

/-- Two digits with two zeros in front of them. -/
theorem hexNumber?_of_hexValue? {n : ℕ} (hn : n < 256) {a b : Char}
    (ha : hexValue? a = some (n / 16)) (hb : hexValue? b = some (n % 16)) :
    hexNumber? ['0', '0', a, b] = some n := by
  have hzero : hexValue? '0' = some 0 := rfl
  have hhigh : n / 16 < 16 := by omega
  have hlow : n % 16 < 16 := by omega
  have hsum : 16 * (n / 16) + n % 16 = n := Nat.div_add_mod n 16
  simp [hexNumber?, numberIn?, hzero, ha, hb, Option.filter_some, hhigh, hlow, hsum]

end LinkTuner.Text

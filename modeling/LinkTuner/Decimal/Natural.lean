/-!
# Whole numbers in base ten

Writing gives the fewest digits; reading takes any number of them, with leading zeros, and a sign
where the kind of number has one. Main statement: reading what was written gives the number back.
-/

namespace LinkTuner.Decimal

/-- The character of a digit below ten. -/
def digitChar (n : Nat) : Char := Char.ofNat (48 + n)

/-- The value of a digit. -/
def digitValue? (c : Char) : Option Nat :=
  if 48 ≤ c.toNat ∧ c.toNat ≤ 57 then some (c.toNat - 48) else none

/-- The digits of a number, the most significant first and at least one. -/
def digits (n : Nat) : List Char :=
  if n < 10 then [digitChar n] else digits (n / 10) ++ [digitChar (n % 10)]
termination_by n
decreasing_by omega

/-- The number that digits stand for when `n` stood before them. -/
def readFrom (n : Nat) : List Char → Option Nat
  | [] => some n
  | c :: cs => do readFrom (10 * n + (← digitValue? c)) cs

/-- The number that one or more digits stand for. -/
def natural? : List Char → Option Nat
  | [] => none
  | c :: cs => readFrom 0 (c :: cs)

/-- A number below `limit`, with a plus sign or none. -/
def unsigned? (limit : Nat) (cs : List Char) : Option Nat :=
  (natural? (match cs with | '+' :: rest => rest | _ => cs)).filter (· < limit)

/-- A number from `-limit` up to `limit`, the latter excluded, with either sign or none. -/
def signed? (limit : Nat) : List Char → Option Int
  | '-' :: rest => ((natural? rest).filter (· ≤ limit)).map fun n => -(n : Int)
  | cs => (unsigned? limit cs).map Int.ofNat

/-- The first number that eight bytes with a sign cannot hold. -/
def signedLimit : Nat := 0x8000000000000000

/-- The text of a whole number. -/
def textOfNat (n : Nat) : String := String.ofList (digits n)

/-- The text of a signed number. -/
def textOfInt (n : Int) : String :=
  if n < 0 then String.ofList ('-' :: digits n.natAbs) else textOfNat n.natAbs

@[simp] theorem digitValue?_digitChar {n : Nat} (h : n < 10) :
    digitValue? (digitChar n) = some n := by
  match n, h with
  | 0, _ | 1, _ | 2, _ | 3, _ | 4, _ | 5, _ | 6, _ | 7, _ | 8, _ | 9, _ => decide

theorem digits_ne_nil (n : Nat) : digits n ≠ [] := by
  rw [digits]; split <;> simp

theorem readFrom_append (n : Nat) (cs ds : List Char) :
    readFrom n (cs ++ ds) = (readFrom n cs).bind (readFrom · ds) := by
  induction cs generalizing n with
  | nil => rfl
  | cons c cs ih =>
    simp only [List.cons_append, readFrom]
    cases digitValue? c with
    | none => rfl
    | some d => exact ih _

theorem readFrom_digits (n : Nat) : readFrom 0 (digits n) = some n := by
  induction n using digits.induct with
  | case1 n h => rw [digits, if_pos h]; simp [readFrom, h]
  | case2 n h ih =>
    rw [digits, if_neg h, readFrom_append, ih]
    simp [readFrom, Nat.mod_lt]
    omega

/-- Reading what was written gives the number back. -/
@[simp] theorem natural?_digits (n : Nat) : natural? (digits n) = some n := by
  cases hd : digits n with
  | nil => exact absurd hd (digits_ne_nil n)
  | cons c cs => rw [natural?, ← hd, readFrom_digits]

end LinkTuner.Decimal

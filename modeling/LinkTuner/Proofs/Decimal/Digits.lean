import Mathlib
import LinkTuner.Decimal.Read

/-!
# Digits and their number

Any digits that can be read stand for a number below the power of ten that their count says, and
from the power before on unless the first of them is a zero. Zeros before the digits do not change
the number, and each zero after them raises it tenfold.
-/

namespace LinkTuner.Decimal

theorem twoTo_eq (n : ℕ) : twoTo n = 2 ^ n := rfl

theorem tenTo_eq (n : ℕ) : tenTo n = 10 ^ n := rfl

theorem isDigit_iff {c : Char} : isDigit c = true ↔ 48 ≤ c.toNat ∧ c.toNat ≤ 57 := by
  simp [isDigit, digitValue?]

theorem isDigit_of_mem_zeros {c : Char} {k : ℕ} (h : c ∈ List.replicate k '0') :
    isDigit c = true := by
  rw [List.eq_of_mem_replicate h]
  rfl

theorem digitValue?_lt {c : Char} {d : ℕ} (h : digitValue? c = some d) : d < 10 := by
  rw [digitValue?, Option.ite_none_right_eq_some] at h
  obtain ⟨hrange, hd⟩ := h
  cases hd
  omega

/-! ## Reading digits -/

section

variable {a n : ℕ} {cs : List Char}

theorem readFrom_cons_eq_some {c : Char} :
    readFrom a (c :: cs) = some n ↔
      ∃ d, digitValue? c = some d ∧ readFrom (10 * a + d) cs = some n :=
  Option.bind_eq_some_iff

theorem isDigit_of_readFrom (h : readFrom a cs = some n) : ∀ c ∈ cs, isDigit c = true := by
  induction cs generalizing a with
  | nil => simp
  | cons c cs ih =>
      obtain ⟨d, hd, hcs⟩ := readFrom_cons_eq_some.mp h
      rw [List.forall_mem_cons]
      exact ⟨by rw [isDigit, hd, Option.isSome_some], ih hcs⟩

theorem readFrom_bounds (h : readFrom a cs = some n) :
    a * 10 ^ cs.length ≤ n ∧ n < (a + 1) * 10 ^ cs.length := by
  induction cs generalizing a with
  | nil =>
      cases h
      simp
  | cons c cs ih =>
      obtain ⟨d, hd, hcs⟩ := readFrom_cons_eq_some.mp h
      obtain ⟨hlow, hhigh⟩ := ih hcs
      have hd := digitValue?_lt hd
      rw [List.length_cons, pow_succ']
      constructor
      · calc a * (10 * 10 ^ cs.length) = 10 * a * 10 ^ cs.length := by ring
          _ ≤ (10 * a + d) * 10 ^ cs.length := Nat.mul_le_mul_right _ (by omega)
          _ ≤ n := hlow
      · calc n < (10 * a + d + 1) * 10 ^ cs.length := hhigh
          _ ≤ 10 * (a + 1) * 10 ^ cs.length := Nat.mul_le_mul_right _ (by omega)
          _ = (a + 1) * (10 * 10 ^ cs.length) := by ring

theorem readFrom_zeros (a k : ℕ) : readFrom a (List.replicate k '0') = some (a * 10 ^ k) := by
  induction k generalizing a with
  | zero => simp [readFrom]
  | succ k ih =>
      rw [List.replicate_succ, readFrom_cons_eq_some]
      refine ⟨0, rfl, ?_⟩
      rw [ih, pow_succ']
      congr 1
      ring

theorem natural?_eq_some_iff : natural? cs = some n ↔ cs ≠ [] ∧ readFrom 0 cs = some n := by
  cases cs <;> simp [natural?]

/-- A zero after the digits is a factor of ten. -/
theorem natural?_append_zeros (h : natural? cs = some n) (k : ℕ) :
    natural? (cs ++ List.replicate k '0') = some (n * 10 ^ k) := by
  obtain ⟨hne, hread⟩ := natural?_eq_some_iff.mp h
  rw [natural?_eq_some_iff, readFrom_append, hread, Option.bind_some, readFrom_zeros]
  exact ⟨by simp [hne], rfl⟩

/-- A zero before the digits does not count. -/
theorem natural?_zeros_append (h : natural? cs = some n) (k : ℕ) :
    natural? (List.replicate k '0' ++ cs) = some n := by
  obtain ⟨hne, hread⟩ := natural?_eq_some_iff.mp h
  rw [natural?_eq_some_iff, readFrom_append, readFrom_zeros, zero_mul, Option.bind_some, hread]
  exact ⟨by simp [hne], rfl⟩

/-- The digits that count, of a number that is not zero: the first one says how large it is. -/
theorem natural?_significant (h : natural? cs = some n) (hn : 0 < n) :
    natural? (significant cs) = some n ∧ 10 ^ ((significant cs).length - 1) ≤ n ∧
      n < 10 ^ (significant cs).length := by
  obtain ⟨-, hread⟩ := natural?_eq_some_iff.mp h
  clear h
  induction cs with
  | nil =>
      cases hread
      exact absurd hn (lt_irrefl 0)
  | cons c cs ih =>
      obtain ⟨d, hd, hcs⟩ := readFrom_cons_eq_some.mp hread
      rcases eq_or_ne c '0' with rfl | hc
      · cases hd
        exact ih hcs
      · have hkept : significant (c :: cs) = c :: cs := by
          rw [significant, List.dropWhile_cons_of_neg (by simpa using hc)]
        have hdpos : 1 ≤ d := by
          by_contra hzero
          rw [digitValue?, Option.ite_none_right_eq_some] at hd
          obtain ⟨hrange, hd⟩ := hd
          cases hd
          exact hc (Char.toNat_inj.mp (by change c.toNat = 48; omega))
        have hlow := (readFrom_bounds hcs).1
        rw [hkept, natural?_eq_some_iff, List.length_cons, Nat.add_sub_cancel]
        refine ⟨⟨List.cons_ne_nil _ _, hread⟩, le_trans ?_ hlow, ?_⟩
        · exact Nat.le_mul_of_pos_left _ (by omega)
        · simpa using (readFrom_bounds hread).2

end

/-! ## Written numbers -/

theorem isDigit_of_mem_digits {n : ℕ} {c : Char} (h : c ∈ digits n) : isDigit c = true :=
  isDigit_of_readFrom (readFrom_digits n) c h

theorem length_digits_le {n k : ℕ} (hk : 0 < k) (h : n < 10 ^ k) : (digits n).length ≤ k := by
  induction n using digits.induct generalizing k with
  | case1 n hlt =>
      rw [digits, if_pos hlt]
      exact hk
  | case2 n hge ih =>
      rw [digits, if_neg hge, List.length_append, List.length_singleton]
      obtain ⟨k, rfl⟩ : ∃ k', k = k' + 1 := ⟨k - 1, by omega⟩
      have hk' : 0 < k := by
        by_contra hzero
        obtain rfl : k = 0 := by omega
        omega
      rw [pow_succ] at h
      have := ih hk' (by omega)
      omega

/-- A number below the limit is read as it was written. -/
theorem unsigned?_digits {limit n : ℕ} (h : n < limit) : unsigned? limit (digits n) = some n := by
  have hsign (rest : List Char) (hdigits : digits n = '+' :: rest) : False := by
    have hdigit : isDigit '+' = true := isDigit_of_mem_digits (hdigits ▸ List.mem_cons_self)
    cases hdigit
  rw [unsigned?, natural?_digits, Option.filter_some, if_pos (by simpa using h)]
  exact hsign

end LinkTuner.Decimal

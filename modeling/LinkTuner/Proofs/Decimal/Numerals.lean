import LinkTuner.Proofs.Decimal.Digits

/-!
# Numerals

What reads as a whole number without a limit of its own: one or more digits, after a plus sign or
none, with the value that positions in base ten give them. Main statement: text reads as a number
below a limit exactly if it is a numeral of that value.
-/

namespace LinkTuner.Decimal

/-- The value of digits, the most significant first. -/
def valueOf (ds : List Char) : ℕ := Nat.ofDigits 10 (ds.reverse.map fun c => c.toNat - '0'.toNat)

/-- Digits of a given value, after a plus sign or none. -/
def Numeral (field : List Char) (n : ℕ) : Prop :=
  ∃ ds, (field = ds ∨ field = '+' :: ds) ∧ ds ≠ [] ∧ (∀ c ∈ ds, c.isDigit = true) ∧ valueOf ds = n

theorem valueOf_cons (c : Char) (ds : List Char) :
    valueOf (c :: ds) = (c.toNat - '0'.toNat) * 10 ^ ds.length + valueOf ds := by
  rw [valueOf, List.reverse_cons, List.map_append, Nat.ofDigits_append, List.map_singleton,
    Nat.ofDigits_singleton, List.length_map, List.length_reverse, Nat.add_comm, Nat.mul_comm]
  rfl

theorem digitValue?_eq_some_iff {c : Char} {d : ℕ} :
    digitValue? c = some d ↔ c.isDigit = true ∧ c.toNat - '0'.toNat = d := by
  have hdigit : c.isDigit = true ↔ 48 ≤ c.toNat ∧ c.toNat ≤ 57 := by
    simp only [Char.isDigit, Bool.and_eq_true, decide_eq_true_eq, ge_iff_le,
      UInt32.le_iff_toNat_le]
    rfl
  rw [digitValue?, Option.ite_none_right_eq_some, Option.some.injEq, hdigit]
  rfl

/-- Digits are read to their value, after what was read before them. -/
theorem readFrom_eq_some_iff {a n : ℕ} {ds : List Char} :
    readFrom a ds = some n ↔
      (∀ c ∈ ds, c.isDigit = true) ∧ a * 10 ^ ds.length + valueOf ds = n := by
  induction ds generalizing a with
  | nil => simp [readFrom, valueOf]
  | cons c ds ih =>
      rw [readFrom_cons_eq_some, List.forall_mem_cons, List.length_cons, valueOf_cons, pow_succ']
      have hvalue (d : ℕ) : (10 * a + d) * 10 ^ ds.length + valueOf ds =
          a * (10 * 10 ^ ds.length) + (d * 10 ^ ds.length + valueOf ds) := by ring
      constructor
      · rintro ⟨d, hd, hread⟩
        obtain ⟨hc, rfl⟩ := digitValue?_eq_some_iff.mp hd
        obtain ⟨hds, hn⟩ := ih.mp hread
        exact ⟨⟨hc, hds⟩, hvalue _ ▸ hn⟩
      · rintro ⟨⟨hc, hds⟩, hn⟩
        exact ⟨_, digitValue?_eq_some_iff.mpr ⟨hc, rfl⟩, ih.mpr ⟨hds, hvalue _ ▸ hn⟩⟩

/-- Text reads as a number below the limit exactly if it is a numeral of that number. -/
theorem unsigned?_eq_some_iff {limit n : ℕ} {field : List Char} :
    unsigned? limit field = some n ↔ Numeral field n ∧ n < limit := by
  have hdigits (ds : List Char) : natural? ds = some n ↔
      ds ≠ [] ∧ (∀ c ∈ ds, c.isDigit = true) ∧ valueOf ds = n := by
    rw [natural?_eq_some_iff, readFrom_eq_some_iff, zero_mul, zero_add]
  unfold unsigned?
  rw [Option.filter_eq_some_iff, decide_eq_true_eq]
  refine and_congr_left fun _ => ?_
  constructor
  · intro h
    split at h
    · rename_i rest
      exact ⟨rest, .inr rfl, (hdigits rest).mp h⟩
    · exact ⟨field, .inl rfl, (hdigits field).mp h⟩
  · rintro ⟨ds, rfl | rfl, hds⟩
    · split
      · -- A plus sign is no digit.
        exact absurd (hds.2.1 '+' List.mem_cons_self) (by decide)
      · exact (hdigits field).mpr hds
    · exact (hdigits ds).mpr hds

end LinkTuner.Decimal

import LinkTuner.Policy.Learner
import LinkTuner.Proofs.Arith.Greatest
import LinkTuner.Proofs.Decimal.Readback
import LinkTuner.Proofs.Double.Order
import Mathlib.Data.EReal.Operations

/-!
# The best arm in the total order of doubles

The sixty-four bits of a double are in a total order in which numbers come as they stand, negative
zero before zero, and undefined numbers before or after them by their sign. Here this order is
defined by what the bits stand for, and shown to be the one of the ranks that the bits are compared
by. So the best arm is the last of those that no other exceeds, whatever the probabilities are.
-/

namespace LinkTuner

open Decimal

/-! ## What codes stand for -/

/-- The place of what bits say among the numbers and both infinities. Where there is no number the
place does not matter. -/
noncomputable def Decimal.Binary.place : Binary → EReal
  | .notANumber => 0
  | .infinite negative => if negative then ⊥ else ⊤
  | .finite negative m e =>
    let size : ℚ := m * 2 ^ e
    if negative then (((-size : ℚ) : ℝ) : EReal) else ((size : ℝ) : EReal)

namespace Code

variable {x y : UInt64}

/-- The sign bit is set. -/
def Negative (x : UInt64) : Prop := signBit ≤ x.toNat

/-- A number or an infinity. -/
def Defined (x : UInt64) : Prop := Binary.ofBits x.toNat ≠ .notANumber

instance : DecidablePred Negative := fun _ => inferInstanceAs (Decidable (_ ≤ _))

instance : DecidablePred Defined := fun _ => inferInstanceAs (Decidable (_ ≠ _))

/-- The place among the numbers and both infinities. -/
noncomputable def place (x : UInt64) : EReal := (Binary.ofBits x.toNat).place

/-- The first bit of an undefined number, which is set unless it signals. -/
def quiet (x : UInt64) : ℕ := x.toNat % hiddenBit / (hiddenBit / 2)

/-- The other bits of an undefined number. -/
def payload (x : UInt64) : ℕ := x.toNat % (hiddenBit / 2)

/-- Numbers come in their order; of two that are equal, as the zeros are, the one with a sign comes
first. -/
def NumberLe (x y : UInt64) : Prop :=
  place x < place y ∨ place x = place y ∧ (Negative y → Negative x)

/-- Undefined numbers that signal come before those that do not, and payloads in their order. -/
def PayloadLe (x y : UInt64) : Prop :=
  quiet x < quiet y ∨ quiet x = quiet y ∧ payload x ≤ payload y

/-- Undefined numbers with a sign come before those without, and in reverse. -/
def UndefinedLe (x y : UInt64) : Prop :=
  if Negative x then Negative y → PayloadLe y x else ¬Negative y ∧ PayloadLe x y

/-- The total order of doubles: undefined numbers with a sign, then all numbers, then undefined
numbers without a sign. -/
def TotalLe (x y : UInt64) : Prop :=
  if Defined x then (if Defined y then NumberLe x y else ¬Negative y)
  else if Defined y then Negative x else UndefinedLe x y

/-! ## The rank of a code -/

/-- The bits without the sign. -/
def magnitude (x : UInt64) : ℕ := x.toNat % signBit

theorem magnitude_lt (x : UInt64) : magnitude x < signBit := Nat.mod_lt _ (by decide)

/-- A sign turns the order of magnitudes around. -/
theorem rank_of_negative (h : Negative x) :
    rankOfBits x.toNat = signBit - 1 - magnitude x := by
  have hlt := x.toNat_lt
  unfold Negative at h
  rw [rankOfBits, if_pos h]
  simp only [magnitude, signBit] at h ⊢
  omega

theorem rank_of_not_negative (h : ¬Negative x) :
    rankOfBits x.toNat = signBit + magnitude x := by
  unfold Negative at h
  rw [rankOfBits, if_neg h, magnitude, Nat.mod_eq_of_lt (not_le.mp h)]

theorem rank_le_rank_iff : rankOfBits x.toNat ≤ rankOfBits y.toNat ↔
    if Negative x then Negative y → magnitude y ≤ magnitude x
    else ¬Negative y ∧ magnitude x ≤ magnitude y := by
  have hxlt := magnitude_lt x
  have hylt := magnitude_lt y
  by_cases hx : Negative x <;> by_cases hy : Negative y
  · simp only [rank_of_negative hx, rank_of_negative hy, hx, hy, if_true, true_imp_iff]
    omega
  · simp only [rank_of_negative hx, rank_of_not_negative hy, hx, hy, if_true, false_imp_iff,
      iff_true]
    omega
  · simp only [rank_of_not_negative hx, rank_of_negative hy, hx, hy, if_false, not_true_eq_false,
      false_and, iff_false]
    omega
  · simp only [rank_of_not_negative hx, rank_of_not_negative hy, hx, hy, if_false,
      not_false_eq_true, true_and]
    omega

theorem defined_iff : Defined x ↔ magnitude x ≤ infinityBits := by
  simp only [Defined, Binary.ofBits, magnitude]
  split_ifs <;> simp_all

theorem payloadLe_iff (hx : ¬Defined x) (hy : ¬Defined y) :
    PayloadLe x y ↔ magnitude x ≤ magnitude y := by
  have hxlt := magnitude_lt x
  have hylt := magnitude_lt y
  rw [defined_iff, not_le] at hx hy
  simp only [PayloadLe, quiet, payload, magnitude, signBit, infinityBits, hiddenBit] at *
  omega

/-- What a magnitude stands for. -/
noncomputable def size (c : ℕ) : EReal := (Binary.ofBits c).place

theorem place_of_negative (h : Negative x) : place x = -size (magnitude x) := by
  have hmagnitude : ¬signBit ≤ x.toNat % signBit := not_le.mpr (magnitude_lt x)
  unfold Negative at h
  simp only [place, size, magnitude, Binary.ofBits, Nat.mod_mod, h, hmagnitude]
  split_ifs <;> simp [Binary.place]

theorem place_of_not_negative (h : ¬Negative x) : place x = size (magnitude x) := by
  rw [place, size, magnitude, Nat.mod_eq_of_lt (not_le.mp h)]

theorem ofBits_of_lt {c : ℕ} (h : c < infinityBits) :
    ∃ m e, Binary.ofBits c = .finite false m e ∧ codeOf m e = c ∧ Double.Digits m e := by
  have hsign : c < signBit := h.trans (by decide)
  have hcodes := codes_ofBits (hsign.trans (by decide : signBit < 2 * signBit))
  cases hc : Binary.ofBits c with
  | notANumber =>
      rw [hc, Binary.Codes, Nat.mod_eq_of_lt hsign] at hcodes
      omega
  | infinite negative =>
      rw [hc, Binary.Codes] at hcodes
      cases negative <;> simp [signed] at hcodes <;> omega
  | finite negative m e =>
      rw [hc, Binary.Codes] at hcodes
      obtain ⟨hcode, hdigits, -⟩ := hcodes
      cases negative with
      | true =>
          simp [signed] at hcode
          omega
      | false => exact ⟨m, e, rfl, hcode.symm, hdigits⟩

theorem codeOf_lt_codeOf {m m' : ℕ} {e e' : ℤ} (h : Double.Digits m e) (h' : Double.Digits m' e')
    (hlt : codeOf m e < codeOf m' e') : (m : ℚ) * 2 ^ e < m' * 2 ^ e' := by
  rcases lt_trichotomy e e' with hexponent | rfl | hexponent
  · exact Double.lt_of_exponent_lt h h' hexponent
  · have hm : m < m' := by simpa [codeOf] using hlt
    exact mul_lt_mul_of_pos_right (by exact_mod_cast hm) (zpow_pos two_pos _)
  · -- A greater exponent has the greater code.
    obtain ⟨hm, he, hunit⟩ := h
    obtain ⟨hm', he', -⟩ := h'
    simp only [codeOf, hiddenBit] at hlt
    omega

theorem size_strictMonoOn : StrictMonoOn size (Set.Iic infinityBits) := by
  intro c _ d hd h
  have hd : d ≤ infinityBits := hd
  obtain ⟨m, e, hc, hcode, hdigits⟩ := ofBits_of_lt (h.trans_le hd)
  rcases hd.lt_or_eq with hlt | rfl
  · obtain ⟨m', e', hd', hcode', hdigits'⟩ := ofBits_of_lt hlt
    have hless : (m : ℚ) * 2 ^ e < m' * 2 ^ e' :=
      codeOf_lt_codeOf hdigits hdigits' (by rwa [hcode, hcode'])
    have hreal : ((m * 2 ^ e : ℚ) : ℝ) < ((m' * 2 ^ e' : ℚ) : ℝ) := Rat.cast_lt.mpr hless
    simpa only [size, hc, hd', Binary.place, Bool.false_eq_true, if_false,
      EReal.coe_lt_coe_iff] using hreal
  · have hinfinite : Binary.ofBits infinityBits = .infinite false := rfl
    simp only [size, hc, hinfinite, Binary.place, Bool.false_eq_true, if_false]
    exact EReal.coe_lt_top _

theorem size_le_iff {c d : ℕ} (hc : c ≤ infinityBits) (hd : d ≤ infinityBits) :
    size c ≤ size d ↔ c ≤ d :=
  size_strictMonoOn.le_iff_le hc hd

theorem size_zero : size 0 = 0 := by
  have hzero : Binary.ofBits 0 = .finite false 0 (-1074) := rfl
  simp [size, hzero, Binary.place]

theorem size_nonneg {c : ℕ} (h : c ≤ infinityBits) : 0 ≤ size c :=
  size_zero.ge.trans ((size_le_iff (Nat.zero_le _) h).mpr (Nat.zero_le c))

/-- Numbers are ordered as their ranks. -/
theorem numberLe_iff (hx : Defined x) (hy : Defined y) :
    NumberLe x y ↔ rankOfBits x.toNat ≤ rankOfBits y.toNat := by
  rw [defined_iff] at hx hy
  have hxnonneg := size_nonneg hx
  have hynonneg := size_nonneg hy
  rw [rank_le_rank_iff, NumberLe]
  by_cases hnx : Negative x <;> by_cases hny : Negative y
  · rw [place_of_negative hnx, place_of_negative hny]
    simp only [hnx, hny, if_true, true_imp_iff, and_true, ← le_iff_lt_or_eq,
      EReal.neg_le_neg_iff, size_le_iff hy hx]
  · rw [place_of_negative hnx, place_of_not_negative hny]
    have hle := (EReal.neg_le_neg_iff.mpr hxnonneg).trans (neg_zero.trans_le hynonneg)
    simp [hnx, hny, ← le_iff_lt_or_eq, hle]
  · rw [place_of_not_negative hnx, place_of_negative hny]
    have hle := (EReal.neg_le_neg_iff.mpr hynonneg).trans (neg_zero.trans_le hxnonneg)
    simp [hnx, hny, hle.not_gt]
  · rw [place_of_not_negative hnx, place_of_not_negative hny]
    simp [hnx, hny, ← le_iff_lt_or_eq, size_le_iff hx hy]

/-- The total order is that of the ranks. -/
theorem totalLe_iff : TotalLe x y ↔ rankOfBits x.toNat ≤ rankOfBits y.toNat := by
  unfold TotalLe
  split_ifs with hx hy hy
  · exact numberLe_iff hx hy
  · rw [defined_iff] at hx hy
    have hlt := hx.trans_lt (not_le.mp hy)
    rw [rank_le_rank_iff]
    by_cases hnx : Negative x <;> simp [hnx, hlt.le, hlt.not_ge]
  · rw [defined_iff] at hx hy
    have hlt := hy.trans_lt (not_le.mp hx)
    rw [rank_le_rank_iff]
    by_cases hnx : Negative x <;> simp [hnx, hlt.le, hlt.not_ge]
  · rw [rank_le_rank_iff, UndefinedLe, payloadLe_iff hx hy, payloadLe_iff hy hx]

/-! ## The best arm -/

/-- Codes compared by their ranks. -/
def rankLe (x y : UInt64) : Bool := rankOfBits x.toNat ≤ rankOfBits y.toNat

theorem rankLe_iff : rankLe x y = true ↔ TotalLe x y := decide_eq_true_iff.trans totalLe_iff.symm

/-- No code is above the one in a place, and those after it are strictly below it. -/
structure IsBest (codes : List UInt64) (i : ℕ) (x : UInt64) : Prop where
  get : codes[i]? = some x
  le_of_mem : ∀ y ∈ codes, TotalLe y x
  below : ∀ j y, i < j → codes[j]? = some y → TotalLe y x ∧ ¬TotalLe x y

theorem isBest_iff {codes : List UInt64} {i : ℕ} :
    IsBest codes i x ↔ IsLastGreatest rankLe codes i x := by
  constructor
  · intro h
    refine ⟨h.get, fun y hy => rankLe_iff.mpr (h.le_of_mem y hy), fun j y hj hy => ?_⟩
    exact Bool.eq_false_iff.mpr (mt rankLe_iff.mp (h.below j y hj hy).2)
  · intro h
    refine ⟨h.get, fun y hy => rankLe_iff.mp (h.le_of_mem y hy), fun j y hj hy => ?_⟩
    have hle := h.le_of_mem y (List.mem_of_getElem? hy)
    exact ⟨rankLe_iff.mp hle, mt rankLe_iff.mpr (Bool.eq_false_iff.mp (h.below j y hj hy))⟩

theorem exists_isBest {codes : List UInt64} (h : codes ≠ []) :
    ∃ i x, lastGreatest rankLe codes = some i ∧ IsBest codes i x := by
  have htrans (x y z : UInt64) (hxy : rankLe x y = true) (hyz : rankLe y z = true) :
      rankLe x z = true :=
    decide_eq_true (Nat.le_trans (of_decide_eq_true hxy) (of_decide_eq_true hyz))
  have htotal (x y : UInt64) : rankLe x y = true ∨ rankLe y x = true :=
    (Nat.le_total _ _).imp decide_eq_true decide_eq_true
  obtain ⟨i, x, hfound, hgreatest⟩ := isLastGreatest_of_lastGreatest htrans htotal h
  exact ⟨i, x, hfound, isBest_iff.mpr hgreatest⟩

theorem lastGreatest_eq_none_iff {codes : List UInt64} :
    lastGreatest rankLe codes = none ↔ codes = [] := by
  cases codes <;> simp [lastGreatest]

theorem lastGreatest_eq_some_iff {codes : List UInt64} {i : ℕ} :
    lastGreatest rankLe codes = some i ↔ ∃ x, IsBest codes i x := by
  constructor
  · intro h
    have hne : codes ≠ [] := by
      rintro rfl
      cases h
    obtain ⟨j, x, hfound, hbest⟩ := exists_isBest hne
    cases h.symm.trans hfound
    exact ⟨x, hbest⟩
  · rintro ⟨x, hbest⟩
    have hne := List.ne_nil_of_mem (List.mem_of_getElem? hbest.get)
    obtain ⟨j, y, hfound, hother⟩ := exists_isBest hne
    rw [hfound, (isBest_iff.mp hbest).unique (isBest_iff.mp hother)]

theorem best_eq (s : Snapshot Float) :
    s.best = (lastGreatest rankLe (s.probabilities.map Float.toBits)).map .ofNat := by
  rw [lastGreatest_map]
  rfl

/-- Nothing is best only where there is nothing; otherwise it is the last of those codes that none
is above in the total order, and so for the probabilities of a snapshot. -/
theorem best_is_last_in_total_order :
    (∀ codes : List UInt64, (lastGreatest rankLe codes = none ↔ codes = []) ∧
      ∀ i, lastGreatest rankLe codes = some i ↔ ∃ x, IsBest codes i x) ∧
    ∀ s : Snapshot Float, (s.best = none ↔ s.probabilities = []) ∧
      ∀ a, s.best = some a ↔
        ∃ i x, IsBest (s.probabilities.map Float.toBits) i x ∧ .ofNat i = a := by
  refine ⟨fun codes => ⟨lastGreatest_eq_none_iff, fun i => lastGreatest_eq_some_iff⟩,
    fun s => ⟨?_, fun a => ?_⟩⟩
  · rw [best_eq, Option.map_eq_none_iff, lastGreatest_eq_none_iff, List.map_eq_nil_iff]
  · rw [best_eq, Option.map_eq_some_iff]
    simp only [lastGreatest_eq_some_iff, exists_and_right]

/-- Zeros of both signs, of which a later one is repeated, and an undefined number with a sign. -/
example : lastGreatest rankLe [0x8000000000000000, 0, 0, 0xFFF8000000000000] = some 2 := by decide

end Code

end LinkTuner

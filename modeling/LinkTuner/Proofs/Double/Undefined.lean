import LinkTuner.Proofs.Double.Order

/-!
# Results that are no numbers

An infinite or undefined operand leaves no sum, difference or product a number, and an undefined
one leaves every result undefined. What is no number any more does not become one again by being
added to.
-/

namespace LinkTuner.Double

open Float.Model Float.Model.UnpackedFloat

variable {u w : UnpackedFloat}

/-- A float that is not finite comes back from its bits as it was. -/
theorem unpack_pack_of_not_isFinite (h : u.isFinite = false) :
    UnpackedFloat.unpack .binary64 (UnpackedFloat.pack .binary64 u) = u := by
  cases u with
  | notANumber => rfl
  | infinity s => exact unpack_pack_infinity s
  | zero s => cases h
  | finite s m e hm => cases h

theorem isFinite_sub_left (h : u.isFinite = false) :
    (UnpackedFloat.sub .binary64 u w).isFinite = false := by
  cases u with
  | notANumber => rfl
  | infinity s =>
      cases w with
      | infinity s' => cases s <;> cases s' <;> rfl
      | _ => rfl
  | zero s => cases h
  | finite s m e hm => cases h

theorem isFinite_sub_right (h : w.isFinite = false) :
    (UnpackedFloat.sub .binary64 u w).isFinite = false := by
  cases u with
  | notANumber => rfl
  | infinity s => exact isFinite_sub_left rfl
  | _ =>
      cases w with
      | notANumber => rfl
      | infinity s' => rfl
      | _ => cases h

theorem isFinite_mul_right (h : w.isFinite = false) :
    (UnpackedFloat.mul .binary64 u w).isFinite = false := by
  cases w with
  | notANumber => cases u <;> rfl
  | infinity s => cases u <;> rfl
  | zero s => cases h
  | finite s m e hm => cases h

/-! ## Doubles -/

variable {x y : Float} {v : ℚ}

/-- What an operation leaves infinite or undefined is so as a double. -/
theorem isFinite_eq_false_of_form
    (hform : form x = UnpackedFloat.unpack .binary64 (UnpackedFloat.pack .binary64 u))
    (h : u.isFinite = false) : x.isFinite = false := by
  rw [unpack_pack_of_not_isFinite h] at hform
  exact (congrArg UnpackedFloat.isFinite hform).trans h

theorem isFinite_sub_of_left (h : x.isFinite = false) : (x - y).isFinite = false :=
  isFinite_eq_false_of_form rfl (isFinite_sub_left h)

theorem isFinite_sub_of_right (h : y.isFinite = false) : (x - y).isFinite = false :=
  isFinite_eq_false_of_form rfl (isFinite_sub_right h)

theorem isFinite_mul_of_right (h : y.isFinite = false) : (x * y).isFinite = false :=
  isFinite_eq_false_of_form rfl (isFinite_mul_right h)

theorem form_of_isNaN (h : x.isNaN = true) : form x = .notANumber := by
  have hform : (form x).isNaN = true := h
  cases hx : form x with
  | notANumber => rfl
  | _ =>
      rw [hx] at hform
      cases hform

/-- What an operation leaves undefined is so as a double. -/
theorem isNaN_of_form
    (hform : form x = UnpackedFloat.unpack .binary64 (UnpackedFloat.pack .binary64 u))
    (h : u = .notANumber) : x.isNaN = true := by
  subst h
  exact congrArg UnpackedFloat.isNaN hform

theorem isNaN_add_of_left (h : x.isNaN = true) : (x + y).isNaN = true :=
  isNaN_of_form (u := UnpackedFloat.add .binary64 (form x) (form y)) rfl
    (by rw [form_of_isNaN h]; rfl)

theorem isNaN_add_of_right (h : y.isNaN = true) : (x + y).isNaN = true :=
  isNaN_of_form (u := UnpackedFloat.add .binary64 (form x) (form y)) rfl
    (by rw [form_of_isNaN h]; cases form x <;> rfl)

theorem isNaN_sub_of_left (h : x.isNaN = true) : (x - y).isNaN = true :=
  isNaN_of_form (u := UnpackedFloat.sub .binary64 (form x) (form y)) rfl
    (by rw [form_of_isNaN h]; rfl)

theorem isNaN_mul_of_right (h : y.isNaN = true) : (x * y).isNaN = true :=
  isNaN_of_form (u := UnpackedFloat.mul .binary64 (form x) (form y)) rfl
    (by rw [form_of_isNaN h]; cases form x <;> rfl)

theorem isNaN_div_of_left (h : x.isNaN = true) : (x / y).isNaN = true :=
  isNaN_of_form (u := UnpackedFloat.div .binary64 (form x) (form y)) rfl
    (by rw [form_of_isNaN h]; rfl)

theorem isNaN_div_of_right (h : y.isNaN = true) : (x / y).isNaN = true :=
  isNaN_of_form (u := UnpackedFloat.div .binary64 (form x) (form y)) rfl
    (by rw [form_of_isNaN h]; cases form x <;> rfl)

/-- The quotient of two infinities is undefined. -/
theorem isNaN_div_of_isInf (hx : (form x).isInf = true) (hy : (form y).isInf = true) :
    (x / y).isNaN = true := by
  obtain ⟨s, hx⟩ := infinity_of_isInf hx
  obtain ⟨s', hy⟩ := infinity_of_isInf hy
  exact isNaN_of_form (u := UnpackedFloat.div .binary64 (form x) (form y)) rfl
    (by rw [hx, hy]; rfl)

/-- Every number has a nearest double. -/
theorem exists_nearest (v : ℚ) : ∃ r, Nearest v r := by
  rcases eq_or_ne v 0 with rfl | hv
  · exact ⟨0, nearest_self isDouble_zero⟩
  · have hnum : 0 < v.num.natAbs := Int.natAbs_pos.mpr (Rat.num_ne_zero.mpr hv)
    have habs : |v| = v.num.natAbs * 2 ^ (0 : ℤ) / (v.den * 2 ^ (0 : ℤ)) := by
      rw [zpow_zero, mul_one, mul_one, Nat.cast_natAbs, Int.cast_abs, Rat.abs_def, Rat.divInt_eq_div,
        Int.natCast_natAbs, Int.cast_abs, Int.cast_natCast]
    have hround := (rounds_divCore 0 0 hnum v.den_pos .positive rfl).nearest
    rw [signed, ← habs] at hround
    rcases abs_choice v with h | h
    · exact ⟨_, h ▸ hround⟩
    · exact ⟨_, neg_neg v ▸ (h ▸ hround).neg⟩

/-- The number is not too large for a double. -/
def Fits (v : ℚ) : Prop := |v| < 2 ^ (1024 : ℤ)

theorem Fits.neg (h : Fits v) : Fits (-v) := (abs_neg v).trans_lt h

theorem Fits.of_between {a b : ℚ} (ha : Fits a) (hb : Fits b) (hav : a ≤ v) (hvb : v ≤ b) :
    Fits v :=
  abs_lt.mpr ⟨(abs_lt.mp ha).1.trans_le hav, hvb.trans_lt (abs_lt.mp hb).2⟩

/-- The double is finite exactly if everything on the way to it fitted, and then it holds the
number. -/
structure Follows (x : Float) (fits : Prop) (v : ℚ) : Prop where
  isFinite_iff : x.isFinite = true ↔ fits
  holds : fits → Holds x v

/-- A result is finite exactly if the nearest double is in range. -/
theorem Result.exists_follows (h : Result x v) :
    ∃ r, Nearest v r ∧ Follows x (Fits r) r := by
  obtain ⟨r, hr, hholds, hinfinite⟩ := h
  refine ⟨r, hr, ⟨fun hfinite => ?_, fun hlt => (hholds hlt).finite⟩, hholds⟩
  by_contra hlarge
  obtain ⟨s, hs⟩ := infinity_of_isInf (hinfinite (not_lt.mp hlarge))
  have hfinite : (form x).isFinite = true := hfinite
  rw [hs] at hfinite
  cases hfinite

theorem Result.isInf_of_not_isFinite (h : Result x v) (hx : x.isFinite = false) :
    (form x).isInf = true := by
  obtain ⟨r, -, hholds, hinfinite⟩ := h
  refine hinfinite (not_lt.mp fun hlt => ?_)
  have hfinite : x.isFinite = true := (hholds hlt).finite
  rw [hx] at hfinite
  cases hfinite

namespace Follows

variable {a b : ℚ} {p q : Prop}

theorem of_not (h : x.isFinite = false) (hp : ¬p) (v : ℚ) : Follows x p v :=
  ⟨by simp [h, hp], fun hp' => absurd hp' hp⟩

theorem exists_sub (hx : Follows x p a) (hy : Follows y q b) :
    ∃ r, Nearest (a - b) r ∧ Follows (x - y) ((p ∧ q) ∧ Fits r) r := by
  by_cases hpq : p ∧ q
  · obtain ⟨r, hr, hfollows⟩ := ((hx.holds hpq.1).sub (hy.holds hpq.2)).exists_follows
    exact ⟨r, hr, by rwa [and_iff_right hpq]⟩
  · obtain ⟨r, hr⟩ := exists_nearest (a - b)
    refine ⟨r, hr, of_not ?_ (fun h => hpq h.1) r⟩
    rcases not_and_or.mp hpq with hp | hq
    · exact isFinite_sub_of_left (Bool.eq_false_iff.mpr (mt hx.isFinite_iff.mp hp))
    · exact isFinite_sub_of_right (Bool.eq_false_iff.mpr (mt hy.isFinite_iff.mp hq))

theorem exists_mul (hx : Holds x a) (hy : Follows y q b) :
    ∃ r, Nearest (a * b) r ∧ Follows (x * y) (q ∧ Fits r) r := by
  by_cases hq : q
  · obtain ⟨r, hr, hfollows⟩ := (hx.mul (hy.holds hq)).exists_follows
    exact ⟨r, hr, by rwa [and_iff_right hq]⟩
  · obtain ⟨r, hr⟩ := exists_nearest (a * b)
    have hfinite : y.isFinite = false := Bool.eq_false_iff.mpr (mt hy.isFinite_iff.mp hq)
    exact ⟨r, hr, of_not (isFinite_mul_of_right hfinite) (fun h => hq h.1) r⟩

end Follows

end LinkTuner.Double

import LinkTuner.Proofs.Double.Rounding

/-!
# What doubles stand for

The sixty-four bits of a double hold a float in the form that floats are compared in, and every
float in this form comes back from its bits, or as an infinity if it is too large for them. So the
result of an operation on doubles is the nearest double of the exact result, unless that is too
large.
-/

namespace LinkTuner.Double

open Float.Model Float.Model.UnpackedFloat

/-! ## Floats and their bits -/

theorem unpackSign_packComponents {spec : Format} (s : Sign) (e : BitVec spec.exponentBits)
    (v : BitVec spec.mantissaBitsWithoutImplicit) :
    unpackSign (packComponents spec s e v) = s.toBitVec := by
  ext i hi
  obtain rfl : i = 0 := by omega
  simp [unpackSign, packComponents, BitVec.getLsbD_append, BitVec.getElem_append]

theorem ofBitVec_toBitVec (s : Sign) : Sign.ofBitVec s.toBitVec = s := by
  cases s <;> rfl

theorem toNat_one_append (v : BitVec 52) : (1#1 ++ v).toNat = 2 ^ 52 + v.toNat := by
  rw [BitVec.toNat_append, ← Nat.shiftLeft_add_eq_or_of_lt v.isLt]
  rfl

theorem unpack_normal (s : Sign) {b : BitVec 11} {v : BitVec 52} (hones : b ≠ -1#11)
    (hzero : b ≠ 0#11) (hpos : 0 < (1#1 ++ v).toNat) :
    UnpackedFloat.unpack .binary64 (packComponents .binary64 s b v) =
      .finite s (1#1 ++ v).toNat (b.toNat - 1075) hpos := by
  unfold UnpackedFloat.unpack
  simp only [unpackSign_packComponents, unpackExponent_packComponents,
    unpackMantissa_packComponents, ofBitVec_toBitVec, hones, hzero, if_false]
  rfl

theorem unpack_subnormal (s : Sign) {v : BitVec 52} (hv : v ≠ 0#52) (hpos : 0 < v.toNat) :
    UnpackedFloat.unpack .binary64 (packComponents .binary64 s 0#11 v) =
      .finite s v.toNat (-1074) hpos := by
  have hones : 0#11 ≠ -1#11 := by decide
  unfold UnpackedFloat.unpack
  simp only [unpackSign_packComponents, unpackExponent_packComponents,
    unpackMantissa_packComponents, ofBitVec_toBitVec, hv, hones, if_false, if_true]
  rfl

theorem unpack_pack_infinity (s : Sign) :
    UnpackedFloat.unpack .binary64 (packedInfinity .binary64 s) = .infinity s := by
  cases s <;> rfl

/-- What the bits of a double have room for. -/
def fit : UnpackedFloat → UnpackedFloat
  | .finite s m e h => if e ≤ 971 then .finite s m e h else .infinity s
  | u => u

theorem unpack_pack_finite {m : ℕ} {e : ℤ} (h : Digits m e) (s : Sign) (hm : 0 < m) :
    UnpackedFloat.unpack .binary64 (UnpackedFloat.pack .binary64 (.finite s m e hm)) =
      fit (.finite s m e hm) := by
  obtain ⟨hlt, he, hunit⟩ := h
  have hbias : Format.binary64.exponentBias = 1023 := rfl
  have hdigits : Format.binary64.mantissaBits = 53 := rfl
  obtain ⟨b, hb⟩ : ∃ b : ℕ, (e + (1023 : ℕ) + (52 : ℕ)).toNat = b := ⟨_, rfl⟩
  simp only [UnpackedFloat.pack, fit, hbias, hdigits, hb]
  split_ifs with hlarge hle hnormal hle hle
  · omega
  · exact unpack_pack_infinity s
  · have hlog : 2 ^ 52 ≤ m := (Nat.le_log2 hm.ne').mp (by omega)
    have hexponent : (BitVec.ofNat 11 b).toNat = b := by
      rw [BitVec.toNat_ofNat, Nat.mod_eq_of_lt (by omega)]
    have hmantissa : (1#1 ++ BitVec.ofNat 52 m).toNat = m := by
      rw [toNat_one_append, BitVec.toNat_ofNat]
      omega
    rw [unpack_normal s _ _ (by omega)]
    · simp only [hmantissa, hexponent, finite.injEq, true_and]
      omega
    · intro hones
      have := congrArg BitVec.toNat hones
      simp at this
      omega
    · intro hzero
      have := congrArg BitVec.toNat hzero
      simp at this
      omega
  · omega
  · have hlog : m < 2 ^ 52 := by
      by_contra hge
      have := (Nat.le_log2 hm.ne').mpr (not_lt.mp hge)
      have := (Nat.log2_lt hm.ne').mpr hlt
      omega
    have hmantissa : (BitVec.ofNat 52 m).toNat = m := by
      rw [BitVec.toNat_ofNat, Nat.mod_eq_of_lt hlog]
    rw [unpack_subnormal s _ (by omega)]
    · simp only [hmantissa, finite.injEq, true_and]
      omega
    · intro hzero
      have := congrArg BitVec.toNat hzero
      rw [hmantissa] at this
      simp at this
      omega
  · omega

theorem unpack_pack {u : UnpackedFloat} (h : Canonical u) :
    UnpackedFloat.unpack .binary64 (UnpackedFloat.pack .binary64 u) = fit u := by
  cases u with
  | finite s m e hm => exact unpack_pack_finite h s hm
  | infinity s => exact unpack_pack_infinity s
  | zero s => cases s <;> rfl
  | notANumber => rfl

theorem abs_signed (s : Sign) (x : ℚ) : |signed s x| = |x| := by
  cases s with
  | negative => exact abs_neg x
  | positive => rfl

theorem abs_value_lt (s : Sign) {m : ℕ} {e : ℤ} (h : 0 < m) (hm : m < 2 ^ 53) (he : e ≤ 971) :
    |value (.finite s m e h)| < 2 ^ (1024 : ℤ) := by
  have hm : (m : ℚ) < 2 ^ 53 := by exact_mod_cast hm
  have he : (2 : ℚ) ^ e ≤ 2 ^ (971 : ℤ) := zpow_le_zpow_right₀ one_le_two he
  rw [value, abs_signed, abs_of_nonneg (by positivity), two_zpow_eq 1024 53]
  exact mul_lt_mul hm he (by positivity) (by positivity)

theorem canonical_finite (s : Sign) {m : ℕ} {e : ℤ} (hm : 0 < m) (h : Digits m e) (he : e ≤ 971) :
    Canonical (.finite s m e hm) ∧ |value (.finite s m e hm)| < 2 ^ (1024 : ℤ) :=
  ⟨h, abs_value_lt s hm h.1 he⟩

/-- What is read from sixty-four bits. -/
theorem canonical_unpack (b : BitVec Format.binary64.numBits) :
    Canonical (UnpackedFloat.unpack .binary64 b) ∧
      |value (UnpackedFloat.unpack .binary64 b)| < 2 ^ (1024 : ℤ) := by
  have hbias : Format.binary64.exponentBias = 1023 := rfl
  unfold UnpackedFloat.unpack
  simp only
  split_ifs with hones hmantissa hzero hmantissa
  · exact ⟨trivial, by simp [value]⟩
  · exact ⟨trivial, by simp [value]⟩
  · exact ⟨trivial, by simp [value]⟩
  · have hexponent :
        ((unpackExponent b).toNat : ℤ) - (Format.binary64.exponentBias + (52 : ℕ)) + 1 = -1074 := by
      rw [hzero, hbias]
      rfl
    exact canonical_finite _ _ ⟨(unpackMantissa b).isLt.trans (by norm_num), hexponent.ge,
      Or.inr hexponent⟩ (hexponent.trans_le (by norm_num))
  · have hpos : 0 < (unpackExponent b).toNat := by
      rw [Nat.pos_iff_ne_zero]
      exact fun h => hzero (BitVec.eq_of_toNat_eq h)
    have htop : (unpackExponent b).toNat < 2047 := by
      have hlt : (unpackExponent b).toNat < 2 ^ 11 := (unpackExponent b).isLt
      have hne : (unpackExponent b).toNat ≠ 2047 := fun h => hones (BitVec.eq_of_toNat_eq h)
      omega
    have hmantissa : (1#1 ++ unpackMantissa b).toNat = 2 ^ 52 + (unpackMantissa b).toNat :=
      toNat_one_append _
    have hlt : (unpackMantissa b).toNat < 2 ^ 52 := (unpackMantissa b).isLt
    refine canonical_finite _ _ ⟨hmantissa.trans_lt (by omega), ?_, Or.inl ?_⟩ ?_
    · rw [hbias]
      omega
    · exact (Nat.le_add_right _ _).trans hmantissa.ge
    · rw [hbias]
      omega

/-- The float that a double holds. -/
def form (x : Float) : UnpackedFloat := x.toModel.unpack

theorem canonical_form (x : Float) : Canonical (form x) := (canonical_unpack _).1

theorem abs_value_form_lt (x : Float) : |value (form x)| < 2 ^ (1024 : ℤ) := (canonical_unpack _).2

theorem isDouble_value {u : UnpackedFloat} (h : Canonical u) : IsDouble (value u) := by
  cases u with
  | finite s m e hm =>
      obtain ⟨hlt, he, -⟩ := h
      have hvalue : IsDouble (m * 2 ^ e) :=
        ⟨m, e, by rw [abs_of_nonneg (by omega)]; omega, he, by simp⟩
      cases s with
      | negative => exact hvalue.neg
      | positive => exact hvalue
  | infinity s => exact isDouble_zero
  | zero s => exact isDouble_zero
  | notANumber => exact isDouble_zero

/-- A float is too large for a double from `2 ^ 1024` on. -/
theorem fit_of_lt {u : UnpackedFloat} (h : Canonical u) (hlt : |value u| < 2 ^ (1024 : ℤ)) :
    fit u = u := by
  cases u with
  | finite s m e hm =>
      obtain ⟨-, -, hunit⟩ := h
      refine if_pos (not_lt.mp fun hlarge => ?_)
      have hm : (2 : ℚ) ^ 52 ≤ m := by exact_mod_cast hunit.resolve_right (by omega)
      have he : (2 : ℚ) ^ (972 : ℤ) ≤ 2 ^ e := zpow_le_zpow_right₀ one_le_two (by omega)
      have hle : (2 : ℚ) ^ 52 * 2 ^ (972 : ℤ) ≤ m * 2 ^ e :=
        mul_le_mul hm he (by positivity) (by positivity)
      rw [value, abs_signed, abs_of_nonneg (by positivity), two_zpow_eq 1024 52] at hlt
      exact absurd hlt (not_lt.mpr hle)
  | infinity s => rfl
  | zero s => rfl
  | notANumber => rfl

theorem isInf_fit_of_le {u : UnpackedFloat} (h : Canonical u) (hle : 2 ^ (1024 : ℤ) ≤ |value u|) :
    (fit u).isInf = true := by
  cases u with
  | finite s m e hm =>
      have hlarge : ¬e ≤ 971 := fun he => absurd (abs_value_lt s hm h.1 he) (not_lt.mpr hle)
      simp [fit, hlarge, UnpackedFloat.isInf]
  | infinity s => rfl
  | zero s => exact absurd hle (by simp [value])
  | notANumber => exact absurd hle (by simp [value])

/-- The double holds a number. -/
structure Holds (x : Float) (v : ℚ) : Prop where
  finite : (form x).isFinite = true
  value_eq : value (form x) = v

theorem Holds.isDouble {x : Float} {v : ℚ} (h : Holds x v) : IsDouble v :=
  h.value_eq ▸ isDouble_value (canonical_form x)

theorem Holds.abs_lt {x : Float} {v : ℚ} (h : Holds x v) : |v| < 2 ^ (1024 : ℤ) :=
  h.value_eq ▸ abs_value_form_lt x

/-- The double holds the nearest double of a number, or is an infinity if that is too large. -/
def Result (x : Float) (v : ℚ) : Prop :=
  ∃ r, Nearest v r ∧ (|r| < 2 ^ (1024 : ℤ) → Holds x r) ∧
    (2 ^ (1024 : ℤ) ≤ |r| → (form x).isInf = true)

theorem Rounds.result {u : UnpackedFloat} {v : ℚ} (h : Rounds u v) {x : Float}
    (hx : form x = UnpackedFloat.unpack .binary64 (UnpackedFloat.pack .binary64 u)) :
    Result x v := by
  rw [unpack_pack h.canonical] at hx
  refine ⟨value u, h.nearest, fun hlt => ?_, fun hle => ?_⟩
  · rw [fit_of_lt h.canonical hlt] at hx
    exact ⟨hx ▸ h.finite, hx ▸ rfl⟩
  · exact hx ▸ isInf_fit_of_le h.canonical hle

end LinkTuner.Double

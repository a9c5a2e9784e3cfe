import LinkTuner.Proofs.Decimal.Readback
import LinkTuner.Toml.Printer
import LinkTuner.Toml.Token

/-!
# Numbers in a TOML text

A number is written as a word of digits with a sign in front of it or none and a point among them or
none, so it is no date, no time and no number of another base. Main statements: a whole number of
eight bytes with a sign, and every double, whether finite or not, are read as they were written.
-/

namespace LinkTuner.Toml

open Decimal (isDigit digits withSign Literal NumeralChar)

/-- A text in which no word goes on. -/
def Ends (rest : List Char) : Prop := ∀ c ∈ rest.head?, isWordChar c = false

/-! ## Words in general -/

/-- The number that a word stands for. -/
def number? : List Char → Option Setting
  | '-' :: ds =>
    (special? true ds).orElse fun _ => (whole? true ds).orElse fun _ => decimal? true ds
  | '+' :: ds =>
    (special? false ds).orElse fun _ => (whole? false ds).orElse fun _ => decimal? false ds
  | ds => (special? false ds).orElse fun _ => unsignedWord? ds

section

variable {word rest : List Char}

theorem takeWhile_isWordChar (word : List Char) (hword : ∀ c ∈ word, isWordChar c = true)
    (hrest : Ends rest) :
    (word ++ rest).takeWhile isWordChar = word ∧ (word ++ rest).dropWhile isWordChar = rest := by
  rw [List.takeWhile_append_of_pos hword, List.dropWhile_append_of_pos hword]
  cases rest with
  | nil => simp
  | cons c rest => simp [hrest c rfl]

/-- What is read as a word begins like one. -/
theorem exists_of_word? {cs : List Char} {found : Setting × List Char} (h : word? cs = some found) :
    ∃ c ds, cs = c :: ds ∧ isWordChar c = true := by
  cases cs with
  | nil => cases h
  | cons c cs =>
      refine ⟨c, cs, rfl, Bool.eq_true_of_not_eq_false fun hc => ?_⟩
      rw [word?, List.takeWhile_cons_of_neg (by simp [hc])] at h
      cases h

/-- A word that is no truth value, no date and no time is a number or nothing. -/
theorem word?_append (hword : ∀ c ∈ word, isWordChar c = true) (hrest : Ends rest)
    (htruth : word ≠ "true".toList ∧ word ≠ "false".toList) (hdate : afterDate? word = none)
    (htime : afterTime? word = none) :
    word? (word ++ rest) = (number? word).map fun v => (v, rest) := by
  obtain ⟨htake, hdrop⟩ := takeWhile_isWordChar word hword hrest
  simp only [word?, htake, hdrop, htruth.1, htruth.2, hdate, htime, if_false, reduceCtorEq]
  rfl

theorem word?_truth (b : Bool) (hrest : Ends rest) :
    word? ((if b then "true".toList else "false".toList) ++ rest) = some (.bool b, rest) := by
  cases b with
  | true =>
      obtain ⟨htake, hdrop⟩ := takeWhile_isWordChar "true".toList (List.all_eq_true.mp rfl) hrest
      simp only [word?, if_true, htake, hdrop]
  | false =>
      have hother : "false".toList ≠ "true".toList := by decide
      obtain ⟨htake, hdrop⟩ := takeWhile_isWordChar "false".toList (List.all_eq_true.mp rfl) hrest
      simp only [word?, Bool.false_eq_true, if_false, htake, hdrop, if_neg hother, if_true]

theorem mem_of_twoDigits? {low high n : ℕ} (h : twoDigits? low high word = some (n, rest))
    {c : Char} (hc : c ∈ rest) : c ∈ word := by
  unfold twoDigits? at h
  split at h
  · simp only [bind, Option.bind_eq_some_iff] at h
    obtain ⟨m, -, h⟩ := h
    split_ifs at h
    cases h
    exact List.mem_cons_of_mem _ (List.mem_cons_of_mem _ hc)
  · cases h

theorem afterTime?_eq_none (h : ':' ∉ word) : afterTime? word = none := by
  unfold afterTime?
  cases hours : twoDigits? 0 23 word with
  | none => rfl
  | some found =>
      obtain ⟨n, rest⟩ := found
      simp only [bind, Option.bind_some]
      split
      · exact absurd (mem_of_twoDigits? hours List.mem_cons_self) h
      · rfl

theorem afterDate?_eq_none (h : '-' ∉ word.tail) : afterDate? word = none := by
  unfold afterDate?
  split
  · exact absurd (by simp) h
  · rfl

end

/-! ## Words of digits and points -/

theorem isWordChar_of_numeralChar {c : Char} (h : NumeralChar c) : isWordChar c = true := by
  obtain h | rfl := h
  · rw [Decimal.isDigit_iff] at h
    have hdigit : c.isDigit = true := by
      simp only [Char.isDigit, Bool.and_eq_true, decide_eq_true_eq, ge_iff_le]
      exact ⟨UInt32.le_iff_toNat_le.mpr h.1, UInt32.le_iff_toNat_le.mpr h.2⟩
    simp [isWordChar, Char.isAlphanum, hdigit]
  · rfl

section

variable {ds : List Char} (hne : ds ≠ []) (hds : ∀ c ∈ ds, NumeralChar c)

include hds

theorem ne_of_numeralChar {c : Char} (hc : ¬NumeralChar c) : c ∉ ds := fun h => hc (hds c h)

include hne

theorem special?_eq_none (negative : Bool) : special? negative ds = none := by
  obtain ⟨c, cs, rfl⟩ := List.exists_cons_of_ne_nil hne
  have hother (d : Char) (tail : List Char) (hd : ¬NumeralChar d) : c :: cs ≠ d :: tail := by
    intro heq
    exact hd ((List.cons.inj heq).1 ▸ hds c List.mem_cons_self)
  rw [special?, if_neg (show c :: cs ≠ "inf".toList from hother 'i' _ (by decide)),
    if_neg (show c :: cs ≠ "nan".toList from hother 'n' _ (by decide))]

theorem number?_withSign (negative : Bool) :
    number? (withSign negative ds) =
      (whole? negative ds).orElse fun _ => decimal? negative ds := by
  have hspecial := special?_eq_none hne hds negative
  cases negative with
  | true =>
      change (special? true ds).orElse _ = _
      rw [hspecial]
      rfl
  | false =>
      have hother (c : Char) (hc : ¬NumeralChar c) (pre : List Char) (tail : List Char) :
          ds ≠ pre ++ c :: tail := by
        rintro rfl
        exact hc (hds c (by simp))
      have hnumber : number? ds = unsignedWord? ds := by
        unfold number?
        split
        · exact absurd rfl (hother '-' (by decide) [] _)
        · exact absurd rfl (hother '+' (by decide) [] _)
        · rw [hspecial]
          rfl
      change number? ds = _
      rw [hnumber]
      unfold unsignedWord?
      split
      · exact absurd rfl (hother 'x' (by decide) ['0'] _)
      · exact absurd rfl (hother 'o' (by decide) ['0'] _)
      · exact absurd rfl (hother 'b' (by decide) ['0'] _)
      · rfl

/-- What consists of digits and points is a number or nothing. -/
theorem word?_withSign (negative : Bool) {rest : List Char} (hrest : Ends rest) :
    word? (withSign negative ds ++ rest) =
      ((whole? negative ds).orElse fun _ => decimal? negative ds).map fun v => (v, rest) := by
  have hsign {c : Char} (hc : c ∈ withSign negative ds) : c = '-' ∨ NumeralChar c := by
    cases negative with
    | true => exact (List.mem_cons.mp hc).imp_right (hds c)
    | false => exact .inr (hds c hc)
  have hhead (c : Char) (cs : List Char) (hc : ¬(c = '-' ∨ NumeralChar c)) :
      withSign negative ds ≠ c :: cs := by
    intro heq
    exact hc (hsign (heq ▸ List.mem_cons_self))
  rw [← number?_withSign hne hds]
  refine word?_append ?_ hrest ⟨hhead 't' _ (by decide), hhead 'f' _ (by decide)⟩ ?_ ?_
  · intro c hc
    obtain rfl | hc := hsign hc
    · rfl
    · exact isWordChar_of_numeralChar hc
  · apply afterDate?_eq_none
    cases negative with
    | true => exact ne_of_numeralChar hds (by decide)
    | false => exact fun h => ne_of_numeralChar hds (by decide) (List.mem_of_mem_tail h)
  · exact afterTime?_eq_none fun h => absurd (hsign h) (by decide)

end

/-! ## Digits -/

theorem grouped?_eq_some {ds : List Char} (hne : ds ≠ []) (hds : ∀ c ∈ ds, isDigit c = true) :
    grouped? isDigit ds = some ds := by
  induction ds with
  | nil => exact absurd rfl hne
  | cons c ds ih =>
      obtain ⟨hc, hds⟩ := List.forall_mem_cons.mp hds
      cases ds with
      | nil => simp [grouped?, hc]
      | cons d ds =>
          have hd : d ≠ '_' := by
            rintro rfl
            exact absurd (hds '_' List.mem_cons_self) (by decide)
          rw [grouped?, if_pos hc, ih (List.cons_ne_nil d ds) hds]
          · rfl
          · exact fun h => absurd h (List.cons_ne_nil d ds)
          · exact fun _ heq => hd (List.cons.inj heq).1

/-- A point is no digit. -/
theorem grouped?_eq_none {ds : List Char} (h : '.' ∈ ds) : grouped? isDigit ds = none := by
  have hpoint : isDigit '.' = false := rfl
  fun_induction grouped? isDigit ds with
  | case1 => cases h
  | case2 c hc =>
      obtain rfl := List.mem_singleton.mp h
      cases hpoint.symm.trans hc
  | case3 c hc => rfl
  | case4 c rest hc ih =>
      have hrest : '.' ∈ rest := by
        obtain rfl | h := List.mem_cons.mp h
        · cases hpoint.symm.trans hc
        · simpa using h
      rw [ih hrest, Option.map_none]
  | case5 c rest hc => rfl
  | case6 c rest _ _ hc ih =>
      have hrest : '.' ∈ rest := by
        obtain rfl | h := List.mem_cons.mp h
        · cases hpoint.symm.trans hc
        · exact h
      rw [ih hrest, Option.map_none]
  | case7 c rest hc => rfl

theorem plainDigits?_whole {l : Literal} (h : l.Proper) : plainDigits? l.whole = some l.whole := by
  rw [plainDigits?, grouped?_eq_some h.whole_ne_nil h.whole, Option.filter_some, if_pos]
  by_cases hzero : l.whole.head? = some '0'
  · simp [h.leading hzero]
  · simp [hzero]

/-- Whole numbers are read as far as eight bytes with a sign hold them. -/
theorem whole?_digits {negative : Bool} {n : ℕ}
    (h : if negative then n ≤ Decimal.signedLimit else n < Decimal.signedLimit) :
    whole? negative (digits n) = some (.whole (if negative then -(n : ℤ) else n)) := by
  have hplain : plainDigits? (digits n) = some (digits n) :=
    plainDigits?_whole (Literal.proper_integer negative n)
  rw [whole?, hplain]
  simp only [bind, Option.bind_some, Decimal.natural?_digits]
  cases negative with
  | true => exact if_pos h
  | false => exact if_pos h

theorem whole?_eq_none (negative : Bool) {cs : List Char} (h : '.' ∈ cs) :
    whole? negative cs = none := by
  rw [whole?, plainDigits?, grouped?_eq_none h]
  rfl

theorem decimal?_mantissa {l : Literal} (h : l.Proper) (hfraction : l.fraction ≠ [])
    (hexponent : l.exponent = 0) (hbits : l.bits ≠ Decimal.infinityBits) :
    decimal? l.negative l.mantissa = some (.decimal (Decimal.ofBits l.bits)) := by
  have hmantissa : l.mantissa = l.whole ++ '.' :: l.fraction := by
    rw [Literal.mantissa, if_neg hfraction]
  have hmark (c : Char) (hc : c ∈ l.mantissa) : (!(c == 'e' || c == 'E')) = true := by
    have hc := Decimal.numeralChar_of_mem_mantissa h hc
    have hother (d : Char) (hd : ¬NumeralChar d) : c ≠ d := fun heq => hd (heq ▸ hc)
    simp [hother 'e' (by decide), hother 'E' (by decide)]
  have hpoint (c : Char) (hc : c ∈ l.whole) : (c != '.') = true := by
    have hc := h.whole c hc
    simp only [bne_iff_ne, ne_eq]
    rintro rfl
    cases hc
  have hwhole : l.mantissa.takeWhile (· != '.') = l.whole := by
    rw [hmantissa, List.takeWhile_append_of_pos hpoint, List.takeWhile_cons_of_neg (by simp),
      List.append_nil]
  have hrest : l.mantissa.dropWhile (· != '.') = '.' :: l.fraction := by
    rw [hmantissa, List.dropWhile_append_of_pos hpoint, List.dropWhile_cons_of_neg (by simp)]
  unfold decimal?
  simp only [List.takeWhile_eq_self_iff.mpr hmark, List.dropWhile_eq_nil_iff.mpr hmark, hrest,
    hwhole, grouped?_eq_some hfraction h.fraction, plainDigits?_whole h, bind, Option.bind_some,
    Option.map_some]
  rw [← hexponent]
  exact if_neg hbits

/-! ## Numbers as they are written -/

section

variable {rest : List Char} (hrest : Ends rest)

include hrest

theorem word?_digits (negative : Bool) (n : ℕ)
    (h : if negative then n ≤ Decimal.signedLimit else n < Decimal.signedLimit) :
    word? (withSign negative (digits n) ++ rest) =
      some (.whole (if negative then -(n : ℤ) else n), rest) := by
  rw [word?_withSign (Decimal.digits_ne_nil n) (fun c hc => .inl (Decimal.isDigit_of_mem_digits hc))
    negative hrest, whole?_digits h]
  rfl

theorem word?_textOfInt {n : ℤ} (hlow : -(Decimal.signedLimit : ℤ) ≤ n)
    (hhigh : n < Decimal.signedLimit) :
    word? ((Decimal.textOfInt n).toList ++ rest) = some (.whole n, rest) := by
  rw [Decimal.textOfInt]
  split_ifs with hnegative
  · have hread := word?_digits hrest true n.natAbs (by
      rw [if_pos rfl]
      omega)
    rw [String.toList_ofList]
    refine hread.trans ?_
    rw [if_pos rfl, show -(n.natAbs : ℤ) = n by omega]
  · have hread := word?_digits hrest false n.natAbs (by
      rw [if_neg Bool.false_ne_true]
      omega)
    rw [Decimal.textOfNat, String.toList_ofList]
    refine hread.trans ?_
    rw [if_neg Bool.false_ne_true, show (n.natAbs : ℤ) = n by omega]

theorem word?_special (word : List Char)
    (h : word ∈ [['n', 'a', 'n'], ['-', 'i', 'n', 'f'], ['i', 'n', 'f']])
    {x : Float} (hnumber : number? word = some (.decimal x)) :
    word? (word ++ rest) = some (.decimal x, rest) := by
  simp only [List.mem_cons, List.not_mem_nil, or_false] at h
  obtain rfl | rfl | rfl := h
  all_goals
    rw [word?_append (List.all_eq_true.mp rfl) hrest (by decide) rfl rfl, hnumber, Option.map_some]

/-- Every double is read as it was written. -/
theorem word?_textIn (x : Float) :
    word? ((Decimal.textIn .settings x).toList ++ rest) = some (.decimal x, rest) := by
  have hcodes := Decimal.codes_ofBits (Decimal.bitsOf_lt x)
  have hx := Decimal.ofBits_bitsOf x
  rw [Decimal.textIn, String.toList_ofList, Decimal.textOfBits]
  cases hbinary : Decimal.Binary.ofBits (Decimal.bitsOf x) with
  | notANumber =>
      rw [hbinary] at hcodes
      rw [Decimal.bitsOf_eq_of_lt hcodes] at hx
      exact word?_special hrest ['n', 'a', 'n'] (by simp) (hx ▸ rfl)
  | infinite negative =>
      rw [hbinary] at hcodes
      rw [show Decimal.bitsOf x = Decimal.signed negative Decimal.infinityBits from hcodes] at hx
      cases negative with
      | true =>
          exact word?_special hrest ['-', 'i', 'n', 'f'] (by simp) (hx ▸ rfl)
      | false =>
          exact word?_special hrest ['i', 'n', 'f'] (by simp) (hx ▸ rfl)
  | finite negative m e =>
      rw [hbinary] at hcodes
      obtain ⟨hbits, hdigits, he⟩ := hcodes
      obtain ⟨l, tail, htext, hproper, htail, rfl, hlbits, hplain⟩ :=
        Decimal.exists_literal_magnitudeText Decimal.Style.legible_settings negative hdigits he
      obtain ⟨rfl, hfraction⟩ := hplain rfl
      have hpoint : '.' ∈ l.mantissa := by simp [Literal.mantissa, hfraction rfl]
      have hfinite : l.bits ≠ Decimal.infinityBits := by
        have hcode := Decimal.codeOf_lt hdigits he
        rw [hlbits, Decimal.signed]
        split_ifs
        · simp only [Decimal.signBit, Decimal.infinityBits] at hcode ⊢
          omega
        · exact hcode.ne
      dsimp only
      rw [htext, List.append_nil, word?_withSign (List.ne_nil_of_mem hpoint)
        (fun _ => Decimal.numeralChar_of_mem_mantissa hproper) _ hrest, whole?_eq_none _ hpoint]
      have hexponent : l.exponent = 0 := Option.some.inj (Decimal.exponentPart?_tail htail).symm
      have hdecimal := decimal?_mantissa hproper (hfraction rfl) hexponent hfinite
      change (decimal? l.negative l.mantissa).map _ = _
      rw [hdecimal, hlbits, ← hbits, hx, Option.map_some]

end

end LinkTuner.Toml

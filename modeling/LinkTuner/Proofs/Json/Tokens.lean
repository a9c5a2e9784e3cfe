import LinkTuner.Json.Reader
import LinkTuner.Proofs.Decimal.Readback
import LinkTuner.Proofs.Text.Digits

/-!
# Numbers and strings of a JSON text

A number ends where a comma or a closing bracket follows, and a string ends at its quotation mark.
Main statements: the number of a literal is taken to its end, and a string that was written with its
escapes is read as the text that it was written for.
-/

namespace LinkTuner.Json

open Decimal (isDigit digits withSign Literal ExponentText)

/-! ## Numbers -/

/-- What can follow a value: the end, a comma or a closing bracket. -/
def Closes (rest : List Char) : Prop := ∀ c ∈ rest.head?, c ∈ [',', ']', '\x7d']

/-- No digit and no point ends a number, and only an exponent has a letter. -/
theorem not_numeral_of_mem {c : Char} (h : c ∈ ['e', ',', ']', '\x7d']) :
    isDigit c = false ∧ c ≠ '.' := by
  simp only [List.mem_cons, List.not_mem_nil, or_false] at h
  obtain rfl | rfl | rfl | rfl := h <;> simp [isDigit, Decimal.digitValue?]

theorem closes_cons {c : Char} (h : c ∈ [',', ']', '\x7d']) (cs : List Char) :
    Closes (c :: cs) := by
  simpa [Closes] using h

section

variable {ds cs tail rest : List Char}

theorem takeDigits_append (hne : ds ≠ []) (hds : ∀ c ∈ ds, isDigit c = true)
    (hcs : ∀ c ∈ cs.head?, isDigit c = false) : takeDigits (ds ++ cs) = some (ds, cs) := by
  have htake : (ds ++ cs).takeWhile (fun c => (Decimal.digitValue? c).isSome) = ds :=
    (Decimal.takeWhile_isDigit hds fun c rest hc => hcs c (by simp [hc])).1
  rw [takeDigits, htake]
  cases ds with
  | nil => exact absurd rfl hne
  | cons d ds => simp

theorem takeWhole_append {l : Literal} (h : l.Proper) (hcs : ∀ c ∈ cs.head?, isDigit c = false) :
    takeWhole (l.whole ++ cs) = some (l.whole, cs) := by
  rcases eq_or_ne l.whole ['0'] with hzero | hother
  · rw [hzero]
    cases cs with
    | nil => rfl
    | cons c cs =>
        have hc : (Decimal.digitValue? c).isSome = false := hcs c rfl
        simp [takeWhole, hc]
  · have hhead : l.whole.head? ≠ some '0' := fun hhead => hother (h.leading hhead)
    have hdigits := takeDigits_append h.whole_ne_nil h.whole hcs
    cases hwhole : l.whole with
    | nil => exact absurd hwhole h.whole_ne_nil
    | cons d ds =>
        rw [hwhole] at hdigits hhead
        rw [List.cons_append, takeWhole, ← List.cons_append, hdigits]
        intro rest heq
        cases heq
        exact hhead rfl

theorem takeExponent_append {e : ℤ} (htail : ExponentText e tail) (hrest : Closes rest) :
    takeExponent (tail ++ rest) = some (tail, rest) := by
  have hdigit (c : Char) (hc : c ∈ rest.head?) : isDigit c = false :=
    (not_numeral_of_mem (List.mem_cons_of_mem _ (hrest c hc))).1
  have hdigits (n : ℕ) : takeDigits (digits n ++ rest) = some (digits n, rest) :=
    takeDigits_append (Decimal.digits_ne_nil n) (fun c => Decimal.isDigit_of_mem_digits) hdigit
  cases htail with
  | none =>
      cases rest with
      | nil => rfl
      | cons c cs =>
          have hletter : ¬(c = 'e' ∨ c = 'E') := by
            rintro (rfl | rfl)
            · exact absurd (hrest 'e' rfl) (by simp)
            · exact absurd (hrest 'E' rfl) (by simp)
          simp [takeExponent, hletter]
  | negative n => simp [takeExponent, hdigits]
  | positive n => simp [takeExponent, hdigits]

theorem takeFraction_append {l : Literal} (h : l.Proper) (hcs : ∀ c ∈ cs.head?, isDigit c = false)
    (hpoint : cs.head? ≠ some '.') :
    takeFraction ((if l.fraction = [] then [] else '.' :: l.fraction) ++ cs) =
      some (if l.fraction = [] then [] else '.' :: l.fraction, cs) := by
  split_ifs with hfraction
  · cases cs with
    | nil => rfl
    | cons c cs =>
        rw [List.nil_append, takeFraction]
        intro rest heq
        cases heq
        exact hpoint rfl
  · simp [takeFraction, takeDigits_append hfraction h.fraction hcs]

/-- The text of a literal is taken as a number up to its end. -/
theorem takeMagnitude_append {l : Literal} (h : l.Proper) (htail : ExponentText l.exponent tail)
    (hrest : Closes rest) :
    takeMagnitude (l.mantissa ++ tail ++ rest) = some (l.mantissa ++ tail, rest) := by
  have hafter : ∀ c ∈ (tail ++ rest).head?, c ∈ ['e', ',', ']', '\x7d'] := by
    intro c hc
    cases tail with
    | nil => exact List.mem_cons_of_mem _ (hrest c hc)
    | cons d ds =>
        cases hc
        exact Decimal.not_numeral_of_tail htail rfl ▸ List.mem_cons_self
  have hdigit (c : Char) (hc : c ∈ (tail ++ rest).head?) : isDigit c = false :=
    (not_numeral_of_mem (hafter c hc)).1
  have hpoint : (tail ++ rest).head? ≠ some '.' := fun hhead =>
    (not_numeral_of_mem (hafter '.' hhead)).2 rfl
  have hpointed (c : Char) (hc : c ∈ ((if l.fraction = [] then [] else '.' :: l.fraction) ++
      (tail ++ rest)).head?) : isDigit c = false := by
    split_ifs at hc with hempty
    · exact hdigit c hc
    · cases hc
      rfl
  have hfraction := takeFraction_append h hdigit hpoint
  have hwhole := takeWhole_append h hpointed
  simp only [takeMagnitude, Literal.mantissa, List.append_assoc, hwhole, hfraction,
    takeExponent_append htail hrest, bind, pure, Option.bind_some]

end

/-- A number with its sign. -/
theorem takeNumber_append {l : Literal} {tail rest : List Char} (h : l.Proper)
    (htail : ExponentText l.exponent tail) (hrest : Closes rest) :
    takeNumber (withSign l.negative (l.mantissa ++ tail) ++ rest) =
      some (withSign l.negative (l.mantissa ++ tail), rest) := by
  have hmagnitude := takeMagnitude_append h htail hrest
  cases hnegative : l.negative with
  | true =>
      rw [withSign, if_pos rfl, List.cons_append, takeNumber, hmagnitude]
      rfl
  | false =>
      rw [withSign, if_neg Bool.false_ne_true]
      obtain ⟨d, ds, hds⟩ := List.exists_cons_of_ne_nil h.whole_ne_nil
      have hd : isDigit d = true := h.whole d (hds ▸ List.mem_cons_self)
      have htext : ∃ cs, l.mantissa ++ tail ++ rest = d :: cs := by
        simp [Literal.mantissa, hds]
      obtain ⟨cs, hcs⟩ := htext
      rw [hcs, takeNumber, ← hcs, hmagnitude]
      intro rest heq
      cases heq
      cases hd

/-! ## Strings -/

/-- The piece that a written character is read as: only controls without a letter are codes. -/
def Piece.IsOf (c : Char) (p : Piece) : Prop := p = .char c ∨ (p = .unit c.toNat ∧ c.toNat < 0x20)

theorem readPieces_escape {e c : Char} (h : escaped? e = some c) (cs : List Char) :
    readPieces ('\\' :: e :: cs) =
      (readPieces cs).map fun found => (.char c :: found.1, found.2) := by
  have hcode : e ≠ 'u' := by
    rintro rfl
    cases h
  rw [readPieces, h]
  · cases readPieces cs <;> rfl
  · intro a b c d rest heq
    exact absurd heq hcode

/-- A written character is read as one piece. -/
theorem exists_piece (c : Char) (cs : List Char) :
    ∃ p : Piece, p.IsOf c ∧
      readPieces (escapeChar c ++ cs) =
        (readPieces cs).map fun found => (p :: found.1, found.2) := by
  unfold escapeChar
  split_ifs with hquote hsolidus hback hfeed hline hreturn htab hcontrol
  · exact ⟨.char c, .inl rfl, readPieces_escape (by subst hquote; rfl) cs⟩
  · exact ⟨.char c, .inl rfl, readPieces_escape (by subst hsolidus; rfl) cs⟩
  · exact ⟨.char c, .inl rfl, readPieces_escape (hback ▸ rfl) cs⟩
  · exact ⟨.char c, .inl rfl, readPieces_escape (hfeed ▸ rfl) cs⟩
  · exact ⟨.char c, .inl rfl, readPieces_escape (hline ▸ rfl) cs⟩
  · exact ⟨.char c, .inl rfl, readPieces_escape (hreturn ▸ rfl) cs⟩
  · exact ⟨.char c, .inl rfl, readPieces_escape (htab ▸ rfl) cs⟩
  · refine ⟨.unit c.toNat, .inr ⟨rfl, hcontrol⟩, ?_⟩
    have hcode := Text.hexNumber?_of_hexValue? (show c.toNat < 256 by omega)
      (Text.hexValue?_hexDigit (by omega)) (Text.hexValue?_hexDigit (by omega))
    simp only [List.cons_append, List.nil_append, readPieces, hcode]
    cases readPieces cs <;> rfl
  · refine ⟨.char c, .inl rfl, ?_⟩
    rw [List.singleton_append, readPieces]
    · simp only [hcontrol, hsolidus, beq_iff_eq, or_self, Bool.or_eq_true, decide_eq_true_eq,
        if_false]
      cases readPieces cs <;> rfl
    · exact hquote
    · rintro _ _ _ _ _ heq -
      exact hsolidus heq
    · rintro _ _ heq -
      exact hsolidus heq

/-- A code that is no part of a pair is a character on its own. -/
theorem assemble_unit {n : ℕ} (h : n < 0xd800) (ps : List Piece) :
    assemble (.unit n :: ps) = (assemble ps).map (Char.ofNat n :: ·) := by
  have hleading : isLeading n = false := by simp [isLeading, h]
  have htrailing : isTrailing n = false := by simp [isTrailing, Nat.lt_trans h]
  cases ps with
  | nil => simp [assemble, hleading, htrailing]
  | cons p ps => cases p <;> simp [assemble, hleading, htrailing]

/-- The pieces of characters that were written give those characters back. -/
theorem assemble_of_isOf {ps : List Piece} {cs : List Char}
    (h : List.Forall₂ (fun c p => Piece.IsOf c p) cs ps) : assemble ps = some cs := by
  induction h with
  | nil => rfl
  | @cons c p cs ps hp hps ih =>
      rcases hp with rfl | ⟨rfl, hcontrol⟩
      · rw [assemble, ih, Option.map_some]
      · rw [assemble_unit (by omega), ih, Option.map_some, Char.ofNat_toNat]

/-- A text between its quotation marks is read back. -/
theorem readString_append (s : String) (rest : List Char) :
    readString (s.toList.flatMap escapeChar ++ '"' :: rest) = some (some s, rest) := by
  have hpieces (cs : List Char) : ∃ ps, List.Forall₂ (fun c p => Piece.IsOf c p) cs ps ∧
      readPieces (cs.flatMap escapeChar ++ '"' :: rest) = some (ps, rest) := by
    induction cs with
    | nil => exact ⟨[], .nil, by simp [readPieces]⟩
    | cons c cs ih =>
        obtain ⟨ps, hps, hread⟩ := ih
        obtain ⟨p, hp, hpiece⟩ := exists_piece c (cs.flatMap escapeChar ++ '"' :: rest)
        refine ⟨p :: ps, .cons hp hps, ?_⟩
        rw [List.flatMap_cons, List.append_assoc, hpiece, hread, Option.map_some]
  obtain ⟨ps, hps, hread⟩ := hpieces s.toList
  rw [readString, hread]
  simp [assemble_of_isOf hps]

end LinkTuner.Json

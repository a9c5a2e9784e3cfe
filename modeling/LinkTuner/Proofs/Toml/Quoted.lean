import LinkTuner.Proofs.Text.Digits
import LinkTuner.Toml.Printer
import LinkTuner.Toml.Token
import Mathlib.Data.List.TakeWhile

/-!
# Text between quotation marks

Text is put between those of the four kinds of marks that suit it, and no three marks in a row occur
in it where three end it. Main statement: what was put between quotation marks is read as the text
that it was, whatever follows other than another mark.
-/

namespace LinkTuner.Toml

/-! ## Single characters -/

/-- One character of text with escapes. -/
def unit? : Reader Char
  | [] => none
  | c :: rest => if c = '\\' then escape? rest else if isVisible c then some (c, rest) else none

theorem isVisible_of_not_control {c : Char} (h : isPlainControl c = false) :
    isVisible c = true := by
  simp only [isPlainControl, Bool.or_eq_false_iff, decide_eq_false_iff_not, not_lt] at h
  simp [isVisible, h]

theorem escape?_of_escaped? {e c : Char} (h : escaped? e = some c) (cs : List Char) :
    escape? (e :: cs) = some (c, cs) := by
  have hcode (d : Char) (hd : escaped? d = none) : e ≠ d := by
    rintro rfl
    rw [hd] at h
    cases h
  rw [escape?, h, Option.map_some]
  · intro _ _ _ _ _ heq
    exact absurd heq (hcode 'u' rfl)
  · intro _ _ _ _ _ _ _ _ _ heq
    exact absurd heq (hcode 'U' rfl)

theorem escape?_code {n : ℕ} (h : n < 0x80) (cs : List Char) :
    escape? (['u', '0', '0'] ++ ([n / 16, n % 16].map fun d => (Text.hexDigit d).toUpper) ++ cs) =
      some (Char.ofNat n, cs) := by
  have hcode := Text.hexNumber?_of_hexValue? (show n < 256 by omega)
    (Text.hexValue?_toUpper_hexDigit (by omega)) (Text.hexValue?_toUpper_hexDigit (by omega))
  have hchar : Environment.charOf? n = some (Char.ofNat n) := by
    simp [Environment.charOf?]
    omega
  simp [escape?, hcode, hchar]

/-- How a character begins when it is written, so that it is read whatever follows. -/
structure Begins (c d : Char) (ds rest : List Char) : Prop where
  unit : unit? (d :: ds) = some (c, rest)
  no_end : lineEnd? (d :: ds) = none
  no_continuation : d = '\\' → lineEnd? (skipBlank ds) = none

theorem lineEnd?_of_ne {c : Char} (hline : c ≠ '\n') (hreturn : c ≠ '\r') (rest : List Char) :
    lineEnd? (c :: rest) = none := by
  rw [lineEnd?]
  · exact fun _ heq => absurd (List.cons.inj heq).1 hline
  · exact fun _ heq => absurd (List.cons.inj heq).1 hreturn

theorem lineEnd?_of_isVisible {c : Char} (h : isVisible c = true) (rest : List Char) :
    lineEnd? (c :: rest) = none := by
  refine lineEnd?_of_ne ?_ ?_ rest
  · rintro rfl
    cases h
  · rintro rfl
    cases h

theorem begins_self {c : Char} (hvisible : isVisible c = true) (hsolidus : c ≠ '\\')
    (rest : List Char) : Begins c c rest rest where
  unit := by rw [unit?, if_neg hsolidus, if_pos hvisible]
  no_end := lineEnd?_of_isVisible hvisible rest
  no_continuation heq := absurd heq hsolidus

theorem begins_escape {e c : Char} (h : escaped? e = some c) (rest : List Char) :
    Begins c '\\' (e :: rest) rest where
  unit := by rw [unit?, if_pos rfl, escape?_of_escaped? h]
  no_end := rfl
  no_continuation _ := by
    have hother (d : Char) (hd : escaped? d = none) : e ≠ d := by
      rintro rfl
      rw [hd] at h
      cases h
    have hblank : isBlank e = false := by
      simp [isBlank, hother ' ' rfl, hother '\t' rfl]
    rw [skipBlank, List.dropWhile_cons_of_neg (by simp [hblank])]
    exact lineEnd?_of_ne (hother '\n' rfl) (hother '\r' rfl) rest

/-- A written character is read as one, and does not begin with a mark. -/
theorem exists_begins (inLines : Bool) {c : Char} (hquote : c ≠ '"')
    (hline : c = '\n' → inLines = false) (rest : List Char) :
    ∃ d ds, escapeChar inLines c ++ rest = d :: ds ∧ d ≠ '"' ∧ Begins c d ds rest := by
  unfold escapeChar
  split_ifs with hback htab hfeedline hlines hfeed hreturn hsolidus hcontrol
  · exact ⟨_, _, rfl, by decide, begins_escape (hback ▸ rfl) rest⟩
  · exact ⟨_, _, rfl, by decide, begins_escape (htab ▸ rfl) rest⟩
  · exact absurd (hline hfeedline) (by simp [hlines])
  · exact ⟨_, _, rfl, by decide, begins_escape (hfeedline ▸ rfl) rest⟩
  · exact ⟨_, _, rfl, by decide, begins_escape (hfeed ▸ rfl) rest⟩
  · exact ⟨_, _, rfl, by decide, begins_escape (hreturn ▸ rfl) rest⟩
  · exact ⟨_, _, rfl, by decide, begins_escape (by rw [hsolidus]; rfl) rest⟩
  · have hcode : c.toNat < 0x80 := by
      simp only [isPlainControl, Bool.or_eq_true, decide_eq_true_eq] at hcontrol
      omega
    refine ⟨_, _, rfl, by decide, ?_, rfl, fun _ => rfl⟩
    rw [unit?, if_pos rfl]
    exact (escape?_code hcode rest).trans (by rw [Char.ofNat_toNat])
  · have hvisible := isVisible_of_not_control (Bool.eq_false_of_not_eq_true hcontrol)
    exact ⟨c, rest, rfl, hquote, begins_self hvisible hsolidus rest⟩

/-- A character is put before the others of a text. -/
theorem bind_unit {c : Char} {rest : List Char} {o : Option (Char × List Char)}
    (h : o = some (c, rest)) (read : Reader (List Char)) :
    (do
      let (ch, rest) ← o
      let (cs, rest) ← read rest
      return (ch :: cs, rest)) = (read rest).map fun found => (c :: found.1, found.2) := by
  rw [h]
  change (read rest >>= fun found => pure (c :: found.1, found.2)) = _
  cases read rest <;> rfl

/-! ## Text on one line -/

theorem basic?_of_begins {c d : Char} {ds rest : List Char} (h : Begins c d ds rest)
    (hquote : d ≠ '"') (fuel : ℕ) :
    basic? (fuel + 1) (d :: ds) =
      (basic? fuel rest).map fun found => (c :: found.1, found.2) := by
  have hunit := h.unit
  rw [unit?] at hunit
  rw [basic?, if_neg hquote, ← bind_unit hunit]
  split_ifs <;> rfl

/-- Each character is written as at least one. -/
theorem length_le_escaped (inLines : Bool) (run : ℕ) (cs : List Char) :
    cs.length ≤ (escaped inLines run cs).length := by
  induction cs generalizing run with
  | nil => exact Nat.zero_le _
  | cons c cs ih =>
      rw [escaped]
      split_ifs with hquote hrun
      · simpa using ih (run + 1)
      · have := ih 0
        simp only [List.length_cons]
        omega
      · have hchar : 1 ≤ (escapeChar inLines c).length := by
          unfold escapeChar
          split_ifs <;> simp
        have := ih 0
        simp only [List.length_cons, List.length_append]
        omega

theorem basic?_escaped {cs : List Char} (run : ℕ) {fuel : ℕ} (hfuel : cs.length < fuel)
    (rest : List Char) : basic? fuel (escaped false run cs ++ '"' :: rest) = some (cs, rest) := by
  induction cs generalizing run fuel with
  | nil =>
      obtain ⟨fuel, rfl⟩ := Nat.exists_eq_add_of_lt hfuel
      rw [escaped, List.nil_append, basic?, if_pos rfl]
  | cons c cs ih =>
      obtain ⟨fuel, rfl⟩ : ∃ n, fuel = n + 1 := ⟨fuel - 1, by omega⟩
      have hrest := ih 0 (Nat.lt_of_succ_lt_succ hfuel)
      rw [escaped]
      split_ifs with hquote hrun
      · exact absurd hrun (by simp)
      · subst hquote
        rw [List.cons_append, List.cons_append, basic?_of_begins (begins_escape rfl _) (by decide),
          hrest]
        rfl
      · obtain ⟨d, ds, htext, hd, hbegins⟩ :=
          exists_begins false hquote (fun _ => rfl) (escaped false 0 cs ++ '"' :: rest)
        rw [List.append_assoc, htext, basic?_of_begins hbegins hd, hrest]
        rfl

theorem literal?_append {cs : List Char} (h : ∀ c ∈ cs, c ≠ '\'' ∧ isVisible c = true)
    (rest : List Char) : literal? (cs ++ '\'' :: rest) = some (cs, rest) := by
  induction cs with
  | nil => rfl
  | cons c cs ih =>
      obtain ⟨⟨hmark, hvisible⟩, hcs⟩ := List.forall_mem_cons.mp h
      rw [List.cons_append, literal?, if_neg hmark, if_pos hvisible, ih hcs]
      rfl

/-! ## Text on several lines -/

/-- Three marks after at most two end a text only if nothing else is left of it. -/
theorem closing?_append (mark : Char) (cs : List Char) {rest : List Char}
    (hcs : (cs.takeWhile (· == mark)).length ≤ 2) (hrest : rest.head? ≠ some mark) :
    closing? mark (cs ++ (List.replicate 3 mark ++ rest)) =
      if cs.all (· == mark) then some (cs, rest) else none := by
  have hends : (List.replicate 3 mark ++ rest).takeWhile (· == mark) = List.replicate 3 mark := by
    cases rest with
    | nil => simp
    | cons c rest =>
        have hc : c ≠ mark := by simpa using hrest
        simp [List.replicate, hc]
  have hself : (cs.takeWhile (· == mark)).length = cs.length ↔ cs.all (· == mark) := by
    have hall : cs.takeWhile (· == mark) = cs ↔ cs.all (· == mark) := by
      rw [List.takeWhile_eq_self_iff, List.all_eq_true]
    exact ⟨fun h => hall.mp ((List.takeWhile_prefix _).eq_of_length h),
      fun h => congrArg List.length (hall.mpr h)⟩
  rw [closing?, List.takeWhile_append, hends]
  by_cases hall : cs.all (· == mark)
  · rw [if_pos (hself.mpr hall), if_pos hall]
    rw [hself.mpr hall] at hcs
    have hextra : min ((cs ++ List.replicate 3 mark).length - 3) 2 = cs.length := by simp [hcs]
    have hcount : ¬(cs ++ List.replicate 3 mark).length < 3 := by simp
    have hmarks : cs = List.replicate cs.length mark :=
      List.eq_replicate_iff.mpr ⟨rfl, by simpa using hall⟩
    simp only [if_neg hcount, hextra]
    rw [← List.append_assoc, List.drop_left' (by simp), ← hmarks]
  · rw [if_neg (mt hself.mp hall), if_neg hall]
    exact if_pos (by omega)

theorem head_escapeChar {c : Char} (hquote : c ≠ '"') (inLines : Bool) :
    ∃ d ds, escapeChar inLines c = d :: ds ∧ d ≠ '"' := by
  unfold escapeChar
  split_ifs
  all_goals first
    | exact ⟨_, _, rfl, by decide⟩
    | exact ⟨_, _, rfl, hquote⟩

theorem leading_escaped {run : ℕ} (hrun : run ≤ 2) (cs : List Char) :
    run + ((escaped true run cs).takeWhile (· == '"')).length ≤ 2 := by
  induction cs generalizing run with
  | nil => simpa [escaped] using hrun
  | cons c cs ih =>
      rw [escaped]
      split_ifs with hquote hfew
      · have hlt : run < 2 := by simpa using hfew
        have hnext : run + 1 + _ ≤ 2 := ih hlt
        simp only [List.takeWhile_cons, beq_self_eq_true, if_true, List.length_cons]
        omega
      · simpa using hrun
      · obtain ⟨d, ds, htext, hd⟩ := head_escapeChar hquote true
        rw [htext, List.cons_append, List.takeWhile_cons_of_neg (by simpa using hd)]
        exact hrun

/-- Text that consists of marks needs no escapes. -/
theorem escaped_of_marks {run : ℕ} {cs : List Char} (h : ∀ c ∈ escaped true run cs, c = '"') :
    escaped true run cs = cs := by
  induction cs generalizing run with
  | nil => rfl
  | cons c cs ih =>
      rw [escaped] at h ⊢
      split_ifs at h ⊢ with hquote hfew
      · rw [hquote, ih (List.forall_mem_cons.mp h).2]
      · exact absurd (h _ List.mem_cons_self) (by decide)
      · obtain ⟨d, ds, htext, hd⟩ := head_escapeChar hquote true
        exact absurd (h d (by simp [htext])) hd

theorem basicLines?_of_begins {c d : Char} {ds rest : List Char} (h : Begins c d ds rest)
    (hopen : closing? '"' (d :: ds) = none) (fuel : ℕ) :
    basicLines? (fuel + 1) (d :: ds) =
      (basicLines? fuel rest).map fun found => (c :: found.1, found.2) := by
  have hunit := h.unit
  rw [unit?] at hunit
  have hcontinued : ¬(d = '\\' && (lineEnd? (skipBlank ds)).isSome) = true := by
    simp only [Bool.and_eq_true, decide_eq_true_eq, not_and]
    intro hd
    simp [h.no_continuation hd]
  rw [← bind_unit hunit]
  simp only [basicLines?, hopen, h.no_end, if_neg hcontinued]
  split_ifs <;> rfl

theorem basicLines?_escaped {run : ℕ} (hrun : run ≤ 2) {cs rest : List Char} {fuel : ℕ}
    (hfuel : cs.length < fuel) (hrest : rest.head? ≠ some '"') :
    basicLines? fuel (escaped true run cs ++ (List.replicate 3 '"' ++ rest)) = some (cs, rest) := by
  induction cs generalizing run fuel with
  | nil =>
      obtain ⟨fuel, rfl⟩ : ∃ n, fuel = n + 1 := ⟨fuel - 1, by omega⟩
      have hclosing := closing?_append '"' [] (by simp) hrest
      rw [if_pos List.all_nil] at hclosing
      rw [escaped]
      simp only [List.nil_append, List.replicate, List.cons_append] at hclosing ⊢
      rw [basicLines?, hclosing]
  | cons c cs ih =>
      obtain ⟨fuel, rfl⟩ : ∃ n, fuel = n + 1 := ⟨fuel - 1, by omega⟩
      have hless : cs.length < fuel := Nat.lt_of_succ_lt_succ hfuel
      have hleading := leading_escaped hrun (c :: cs)
      have hclosing := closing?_append '"' (escaped true run (c :: cs))
        (show _ ≤ 2 by omega) hrest
      split_ifs at hclosing with hmarks
      · -- What is left consists of marks, and so do the three that end it.
        obtain ⟨d, ds, htext⟩ := List.exists_cons_of_ne_nil
          (show escaped true run (c :: cs) ≠ [] from fun hnil => by
            simpa [hnil] using length_le_escaped true run (c :: cs))
        rw [escaped_of_marks (by simpa using hmarks), List.cons_append] at hclosing ⊢
        rw [basicLines?, hclosing]
      · rw [escaped] at hclosing ⊢
        split_ifs at hclosing ⊢ with hquote hfew
        · have hnext := ih (Nat.succ_le_of_lt (show run < 2 by simpa using hfew)) hless
          rw [List.cons_append] at hclosing ⊢
          rw [hquote, basicLines?_of_begins (begins_self rfl (by decide) _) hclosing, hnext]
          rfl
        · rw [List.cons_append, List.cons_append] at hclosing ⊢
          rw [hquote, basicLines?_of_begins (begins_escape rfl _) hclosing,
            ih (Nat.zero_le 2) hless]
          rfl
        · by_cases hline : c = '\n'
          · subst hline
            have hnext := ih (Nat.zero_le 2) hless
            change closing? '"' ('\n' :: (escaped true 0 cs ++ _)) = none at hclosing
            change basicLines? (fuel + 1) ('\n' :: (escaped true 0 cs ++ _)) = _
            rw [basicLines?, hclosing]
            change (basicLines? fuel _).map _ = _
            rw [hnext]
            rfl
          · obtain ⟨d, ds, htext, -, hbegins⟩ := exists_begins true hquote
              (fun heq => absurd heq hline)
              (escaped true 0 cs ++ (List.replicate 3 '"' ++ rest))
            rw [List.append_assoc, htext] at hclosing ⊢
            rw [basicLines?_of_begins hbegins hclosing, ih (Nat.zero_le 2) hless]
            rfl

theorem leading_le_longestRun (c : Char) (run best : ℕ) (cs : List Char) :
    best ≤ longestRun c run best cs ∧
      run + (cs.takeWhile (· == c)).length ≤ longestRun c run best cs := by
  induction cs generalizing run best with
  | nil => simp [longestRun]
  | cons d cs ih =>
      rw [longestRun]
      split_ifs with hd
      · obtain ⟨hbest, hrun⟩ := ih (run + 1) best
        rw [List.takeWhile_cons_of_pos (by simpa using hd), List.length_cons]
        exact ⟨hbest, by omega⟩
      · obtain ⟨hbest, -⟩ := ih 0 (max run best)
        rw [List.takeWhile_cons_of_neg (by simpa using hd), List.length_nil]
        exact ⟨by omega, by omega⟩

theorem literalLines?_append {run best : ℕ} {cs rest : List Char}
    (hruns : longestRun '\'' run best cs ≤ 2)
    (hvisible : ∀ c ∈ cs, c = '\n' ∨ isVisible c = true) {fuel : ℕ} (hfuel : cs.length < fuel)
    (hrest : rest.head? ≠ some '\'') :
    literalLines? fuel (cs ++ (List.replicate 3 '\'' ++ rest)) = some (cs, rest) := by
  induction cs generalizing run best fuel with
  | nil =>
      obtain ⟨fuel, rfl⟩ : ∃ n, fuel = n + 1 := ⟨fuel - 1, by omega⟩
      have hclosing := closing?_append '\'' [] (by simp) hrest
      rw [if_pos List.all_nil] at hclosing
      simp only [List.nil_append, List.replicate, List.cons_append] at hclosing ⊢
      rw [literalLines?, hclosing]
  | cons c cs ih =>
      obtain ⟨fuel, rfl⟩ : ∃ n, fuel = n + 1 := ⟨fuel - 1, by omega⟩
      obtain ⟨hc, hcs⟩ := List.forall_mem_cons.mp hvisible
      have hleading := (leading_le_longestRun '\'' run best (c :: cs)).2
      have hclosing := closing?_append '\'' (c :: cs) (show _ ≤ 2 by omega) hrest
      have hnext : literalLines? fuel (cs ++ (List.replicate 3 '\'' ++ rest)) =
          some (cs, rest) := by
        rw [longestRun] at hruns
        split_ifs at hruns
        · exact ih hruns hcs (Nat.lt_of_succ_lt_succ hfuel)
        · exact ih hruns hcs (Nat.lt_of_succ_lt_succ hfuel)
      split_ifs at hclosing with hmarks
      · rw [List.cons_append] at hclosing ⊢
        rw [literalLines?, hclosing]
      · rw [List.cons_append] at hclosing ⊢
        rw [literalLines?, hclosing]
        obtain rfl | hc := hc
        · change (literalLines? fuel _).map _ = _
          rw [hnext]
          rfl
        · simp only [lineEnd?_of_isVisible hc, if_pos hc, hnext]
          rfl

/-! ## The choice of the marks -/

theorem not_mem_of_longestRun {c : Char} {cs : List Char} (h : longestRun c 0 0 cs = 0) :
    c ∉ cs := by
  have hall (run best : ℕ) (hrun : longestRun c run best cs = 0) : c ∉ cs := by
    clear h
    induction cs generalizing run best with
    | nil => exact List.not_mem_nil
    | cons d cs ih =>
        have hleading := (leading_le_longestRun c run best (d :: cs)).2
        rw [hrun] at hleading
        rw [longestRun] at hrun
        split_ifs at hrun with hd
        · rw [List.takeWhile_cons_of_pos (by simpa using hd), List.length_cons] at hleading
          omega
        · exact List.not_mem_cons_of_ne_of_not_mem (Ne.symm hd) (ih _ _ hrun)
  exact hall 0 0 h

/-- Text as it stands has no controls other than those that may stand in it. -/
theorem plain_of_quotationOf (cs : List Char) :
    (quotationOf cs = .literal → ∀ c ∈ cs, c ≠ '\'' ∧ isVisible c = true) ∧
      (quotationOf cs = .literalLines → longestRun '\'' 0 0 cs ≤ 2 ∧
        ∀ c ∈ cs, c = '\n' ∨ isVisible c = true) := by
  have hplain (h : (cs.any fun c => isPlainControl c && c != '\t' && c != '\n') = false) (c : Char)
      (hc : c ∈ cs) : c = '\n' ∨ isVisible c = true := by
    have hc := List.any_eq_false.mp h c hc
    by_cases hline : c = '\n'
    · exact .inl hline
    · by_cases htab : c = '\t'
      · exact .inr (htab ▸ rfl)
      · exact .inr (isVisible_of_not_control (by simpa [hline, htab] using hc))
  unfold quotationOf
  dsimp only
  split_ifs with hbasic hliteral hlines hliteralLines hnewlines
  · exact ⟨nofun, nofun⟩
  · simp only [Bool.and_eq_true, Bool.not_eq_true', decide_eq_true_eq] at hliteral
    obtain ⟨⟨hcontrols, hsingles⟩, hlines⟩ := hliteral
    refine ⟨fun _ c hc => ⟨fun heq => not_mem_of_longestRun hsingles (heq ▸ hc), ?_⟩, nofun⟩
    refine (hplain hcontrols c hc).resolve_left fun heq => ?_
    subst heq
    simp [hc] at hlines
  · exact ⟨nofun, nofun⟩
  · simp only [Bool.and_eq_true, Bool.not_eq_true', decide_eq_true_eq] at hliteralLines
    exact ⟨nofun, fun _ => ⟨hliteralLines.2, hplain hliteralLines.1⟩⟩
  · exact ⟨nofun, nofun⟩
  · exact ⟨nofun, nofun⟩

theorem text?_basicLines (cs : List Char) :
    text? (List.replicate 3 '"' ++ cs) = basicLines? (cs.length + 1) (skipFirstEnd cs) := rfl

theorem text?_literalLines (cs : List Char) :
    text? (List.replicate 3 '\'' ++ cs) = literalLines? (cs.length + 1) (skipFirstEnd cs) := rfl

/-- The end of line that was put after the opening marks is skipped, and no other. -/
theorem skipFirstEnd_append {cs ds : List Char} (h : '\n' ∉ cs → lineEnd? ds = none) :
    skipFirstEnd ((if cs.contains '\n' then ['\n'] else []) ++ ds) = ds := by
  split_ifs with hlines
  · rfl
  · rw [List.nil_append, skipFirstEnd, h (by simpa using hlines), Option.getD_none]

theorem text?_basic {cs : List Char} (h : ∀ ds, cs ≠ '"' :: '"' :: ds) :
    text? ('"' :: cs) = basic? (cs.length + 1) cs := by
  rw [text?]
  exact h

theorem text?_literal {cs : List Char} (h : ∀ ds, cs ≠ '\'' :: '\'' :: ds) :
    text? ('\'' :: cs) = literal? cs := by
  rw [text?]
  exact h

theorem head?_escaped {c : Char} (hquote : c ≠ '"') (inLines : Bool) (run : ℕ)
    (cs rest : List Char) :
    (escaped inLines run (c :: cs) ++ rest).head? ≠ some '"' := by
  obtain ⟨d, ds, htext, hd⟩ := head_escapeChar hquote inLines
  rw [escaped, if_neg hquote, htext]
  simpa using hd

section

variable (cs : List Char) {rest : List Char}

theorem text?_escaped (hrest : rest.head? ≠ some '"') :
    text? ('"' :: escaped false 0 cs ++ ['"'] ++ rest) = some (cs, rest) := by
  have htext : '"' :: escaped false 0 cs ++ ['"'] ++ rest =
      '"' :: (escaped false 0 cs ++ '"' :: rest) := by simp
  rw [htext, text?_basic]
  · refine basic?_escaped 0 (Nat.lt_succ_of_le ?_) rest
    have := length_le_escaped false 0 cs
    rw [List.length_append]
    omega
  · intro ds heq
    cases cs with
    | nil =>
        rw [escaped, List.nil_append, List.cons.injEq] at heq
        exact hrest (by rw [heq.2, List.head?_cons])
    | cons c cs =>
        by_cases hquote : c = '"'
        · subst hquote
          cases heq
        · exact head?_escaped hquote false 0 cs _ (by rw [heq, List.head?_cons])

theorem text?_asIs (h : ∀ c ∈ cs, c ≠ '\'' ∧ isVisible c = true) (hrest : rest.head? ≠ some '\'') :
    text? ('\'' :: cs ++ ['\''] ++ rest) = some (cs, rest) := by
  have htext : '\'' :: cs ++ ['\''] ++ rest = '\'' :: (cs ++ '\'' :: rest) := by simp
  rw [htext, text?_literal]
  · exact literal?_append h rest
  · intro ds heq
    cases cs with
    | nil =>
        rw [List.nil_append, List.cons.injEq] at heq
        exact hrest (by rw [heq.2, List.head?_cons])
    | cons c cs => exact (h c List.mem_cons_self).1 (List.cons.inj heq).1

theorem text?_escapedLines (hrest : rest.head? ≠ some '"') :
    text? (List.replicate 3 '"' ++ (if cs.contains '\n' then ['\n'] else []) ++
      escaped true 0 cs ++ List.replicate 3 '"' ++ rest) = some (cs, rest) := by
  have hend : '\n' ∉ cs →
      lineEnd? (escaped true 0 cs ++ (List.replicate 3 '"' ++ rest)) = none := by
    intro hlines
    cases cs with
    | nil => rfl
    | cons c cs =>
        by_cases hquote : c = '"'
        · subst hquote
          rfl
        · obtain ⟨d, ds, htext, -, hbegins⟩ := exists_begins true hquote
            (fun heq => absurd (heq ▸ List.mem_cons_self) hlines)
            (escaped true 0 cs ++ (List.replicate 3 '"' ++ rest))
          rw [escaped, if_neg hquote, List.append_assoc, htext]
          exact hbegins.no_end
  have hskip := skipFirstEnd_append hend
  have hfuel := length_le_escaped true 0 cs
  rw [List.append_assoc, List.append_assoc, List.append_assoc, text?_basicLines, hskip]
  refine basicLines?_escaped (Nat.zero_le 2) (Nat.lt_succ_of_le ?_) hrest
  simp only [List.length_append]
  omega

theorem text?_asIsLines (hruns : longestRun '\'' 0 0 cs ≤ 2)
    (hvisible : ∀ c ∈ cs, c = '\n' ∨ isVisible c = true) (hrest : rest.head? ≠ some '\'') :
    text? (List.replicate 3 '\'' ++ (if cs.contains '\n' then ['\n'] else []) ++ cs ++
      List.replicate 3 '\'' ++ rest) = some (cs, rest) := by
  have hend : '\n' ∉ cs → lineEnd? (cs ++ (List.replicate 3 '\'' ++ rest)) = none := by
    intro hlines
    cases cs with
    | nil => rfl
    | cons c cs =>
        have hc := (hvisible c List.mem_cons_self).resolve_left fun heq =>
          hlines (heq ▸ List.mem_cons_self)
        exact lineEnd?_of_isVisible hc _
  have hskip := skipFirstEnd_append hend
  rw [List.append_assoc, List.append_assoc, List.append_assoc, text?_literalLines, hskip]
  refine literalLines?_append hruns hvisible (Nat.lt_succ_of_le ?_) hrest
  simp only [List.length_append]
  omega

end

theorem exists_quoted (s : String) : ∃ mark cs, quoted s = mark :: cs ∧ mark ∈ ['"', '\''] := by
  unfold quoted
  dsimp only
  cases quotationOf s.toList with
  | basic => exact ⟨'"', _, rfl, by simp⟩
  | literal => exact ⟨'\'', _, rfl, by simp⟩
  | basicLines => exact ⟨'"', _, rfl, by simp⟩
  | literalLines => exact ⟨'\'', _, rfl, by simp⟩

/-- Text between its quotation marks is read back. -/
theorem text?_quoted (s : String) {rest : List Char}
    (hrest : ∀ mark ∈ ['"', '\''], rest.head? ≠ some mark) :
    text? (quoted s ++ rest) = some (s.toList, rest) := by
  obtain ⟨hdouble, hsingle⟩ : rest.head? ≠ some '"' ∧ rest.head? ≠ some '\'' :=
    ⟨hrest _ (by simp), hrest _ (by simp)⟩
  obtain ⟨hliteral, hliteralLines⟩ := plain_of_quotationOf s.toList
  unfold quoted
  dsimp only
  cases hquotation : quotationOf s.toList with
  | basic => exact text?_escaped s.toList hdouble
  | literal => exact text?_asIs s.toList (hliteral hquotation) hsingle
  | basicLines => exact text?_escapedLines s.toList hdouble
  | literalLines =>
      obtain ⟨hruns, hvisible⟩ := hliteralLines hquotation
      exact text?_asIsLines s.toList hruns hvisible hsingle

end LinkTuner.Toml

import LinkTuner.Proofs.Toml.Quoted
import LinkTuner.Proofs.Toml.Words
import LinkTuner.Toml.Reader

/-!
# Values in a TOML text

A value is written on one line, or a list with each of its items on a line of its own. Main
statement: what was written is read as the value that it was, where whole numbers are all of one
kind.
-/

namespace LinkTuner.Toml

/-- A setting that is no list as it is read: all whole numbers are of one kind. -/
def plain : Setting → Setting
  | .natural n => .whole n
  | v => v

/-- A setting as it is read. -/
def normal : Setting → Setting
  | .list vs => .list (vs.map plain)
  | v => plain v

/-- Whether eight bytes with a sign hold a whole number. -/
def Held : Setting → Prop
  | .whole n => -(Decimal.signedLimit : ℤ) ≤ n ∧ n < Decimal.signedLimit
  | _ => True

/-- What can follow a value that was written. -/
def Closes (rest : List Char) : Prop := ∀ c ∈ rest.head?, c ∈ ['\n', ',', ']']

theorem closes_cons {c : Char} (h : c ∈ ['\n', ',', ']']) (rest : List Char) :
    Closes (c :: rest) := by
  simpa [Closes] using h

theorem Closes.ends {rest : List Char} (h : Closes rest) : Ends rest := by
  intro c hc
  have hc := h c hc
  simp only [List.mem_cons, List.not_mem_nil, or_false] at hc
  obtain rfl | rfl | rfl := hc <;> rfl

theorem Closes.no_mark {rest : List Char} (h : Closes rest) :
    ∀ mark ∈ ['"', '\''], rest.head? ≠ some mark := by
  intro mark hmark hhead
  have hclose := h mark hhead
  simp only [List.mem_cons, List.not_mem_nil, or_false] at hmark
  obtain rfl | rfl := hmark
  · simp at hclose
  · simp at hclose

/-! ## Settings that are no lists -/

/-- A text that is read as a value wherever it stands. -/
structure Scalar (text : List Char) (v : Setting) : Prop where
  head : ∃ c cs, text = c :: cs ∧ c ∉ [' ', '\t', '\n', '\r', '#', ']']
  value {rest : List Char} (hrest : Closes rest) (fuel depth : ℕ) :
    value? (fuel + 1) depth (text ++ rest) = some (v, rest)

theorem scalar_word {text : List Char} {v : Setting}
    (hword : ∀ {rest}, Ends rest → word? (text ++ rest) = some (v, rest)) : Scalar text v := by
  have hread : word? (text ++ []) = some (v, []) := hword nofun
  rw [List.append_nil] at hread
  obtain ⟨c, cs, rfl, hc⟩ := exists_of_word? hread
  have hother (d : Char) (hd : isWordChar d = false) : c ≠ d := by
    rintro rfl
    rw [hd] at hc
    cases hc
  constructor
  · refine ⟨c, cs, rfl, ?_⟩
    simp [hother ' ' rfl, hother '\t' rfl, hother '\n' rfl, hother '\r' rfl, hother '#' rfl,
      hother ']' rfl]
  · intro rest hrest fuel depth
    rw [← hword hrest.ends, List.cons_append, value?]
    · exact fun _ heq => absurd (List.cons.inj heq).1 (hother '[' rfl)
    · exact fun _ heq => absurd (List.cons.inj heq).1 (hother '\x7b' rfl)
    · exact fun _ heq => absurd (List.cons.inj heq).1 (hother '"' rfl)
    · exact fun _ heq => absurd (List.cons.inj heq).1 (hother '\'' rfl)

theorem scalar_quoted (s : String) : Scalar (quoted s) (.text s) := by
  obtain ⟨mark, cs, htext, hmark⟩ := exists_quoted s
  constructor
  · refine ⟨mark, cs, htext, ?_⟩
    simp only [List.mem_cons, List.not_mem_nil, or_false] at hmark
    obtain rfl | rfl := hmark <;> simp
  · intro rest hrest fuel depth
    have hread := text?_quoted s hrest.no_mark
    rw [htext, List.cons_append] at hread ⊢
    simp only [List.mem_cons, List.not_mem_nil, or_false] at hmark
    obtain rfl | rfl := hmark
    · rw [value?, hread]
      simp
    · rw [value?, hread]
      simp

/-- What stands for a setting that is no list is read as it. -/
theorem scalar_of_scalar? {v : Setting} {text : List Char} (h : scalar? v = some text)
    (hv : Held v) : Scalar text (plain v) := by
  cases v with
  | bool b =>
      cases h
      exact scalar_word (word?_truth b)
  | text s =>
      cases h
      exact scalar_quoted s
  | natural n =>
      rw [scalar?] at h
      split_ifs at h with hn
      cases h
      exact scalar_word fun hrest => word?_digits hrest false n hn
  | whole n =>
      cases h
      exact scalar_word fun hrest => word?_textOfInt hrest hv.1 hv.2
  | decimal x =>
      cases h
      exact scalar_word fun hrest => word?_textIn hrest x
  | _ => cases h

/-! ## Lists -/

theorem skipSpace_line (fuel : ℕ) (cs : List Char) :
    skipSpace (fuel + 1) ('\n' :: cs) = skipSpace fuel cs := rfl

theorem skipSpace_blank (fuel : ℕ) (cs : List Char) :
    skipSpace (fuel + 1) (' ' :: cs) = skipSpace (fuel + 1) cs := rfl

theorem skipSpace_of_mem {c : Char} (h : c ∉ [' ', '\t', '\n', '\r', '#']) (fuel : ℕ)
    (cs : List Char) : skipSpace fuel (c :: cs) = c :: cs := by
  simp only [List.mem_cons, List.not_mem_nil, or_false, not_or] at h
  obtain ⟨hspace, htab, hline, hreturn, hcomment⟩ := h
  have hblank : skipBlank (c :: cs) = c :: cs := by
    rw [skipBlank, List.dropWhile_cons_of_neg (by simp [isBlank, hspace, htab])]
  have hstays : skipComment (c :: cs) = c :: cs := by
    rw [skipComment]
    exact fun _ heq => hcomment (List.cons.inj heq).1
  cases fuel with
  | zero => rfl
  | succ fuel => rw [skipSpace, hblank, hstays, lineEnd?_of_ne hline hreturn]

/-- No space stands before a text of a value. -/
theorem Scalar.skipSpace {text : List Char} {v : Setting} (h : Scalar text v) (fuel : ℕ)
    (rest : List Char) : skipSpace fuel (text ++ rest) = text ++ rest := by
  obtain ⟨c, cs, rfl, hc⟩ := h.head
  exact skipSpace_of_mem (fun hmem => hc (by simp at hmem ⊢; tauto)) fuel (cs ++ rest)

/-- After an item comes a comma and what may be left of the list, or its end. -/
theorem items?_first {text cs rest : List Char} {v : Setting} (h : Scalar text v) {mark : Char}
    (hmark : mark = ',' ∨ mark = ']') (hcs : skipSpace cs.length cs = text ++ mark :: rest)
    (fuel depth : ℕ) :
    items? (fuel + 2) depth cs =
      if mark = ',' then
        (items? (fuel + 1) depth rest).map fun found => (v :: found.1, found.2)
      else some ([v], rest) := by
  have hcloses : Closes (mark :: rest) := closes_cons (by obtain rfl | rfl := hmark <;> simp) rest
  have hskip : skipSpace (mark :: rest).length (mark :: rest) = mark :: rest :=
    skipSpace_of_mem (by obtain rfl | rfl := hmark <;> decide) _ rest
  obtain ⟨c, ds, rfl, hc⟩ := h.head
  rw [items?, hcs]
  split
  next heq => exact absurd (List.cons.inj heq).1 (by simp at hc; tauto)
  next =>
    rw [h.value hcloses]
    simp only [bind, Option.bind_some, hskip]
    obtain rfl | rfl := hmark
    · rw [if_pos rfl]
      change (items? (fuel + 1) depth rest).bind _ = _
      cases items? (fuel + 1) depth rest <;> rfl
    · rfl

/-- The lines of items. -/
def itemLines (texts : List (List Char)) : List Char :=
  texts.flatMap fun text => "    ".toList ++ text ++ ",\n".toList

theorem itemLines_cons (text : List Char) (texts : List (List Char)) (rest : List Char) :
    itemLines (text :: texts) ++ rest =
      ' ' :: ' ' :: ' ' :: ' ' :: (text ++ ',' :: '\n' :: (itemLines texts ++ rest)) := by
  simp [itemLines]

theorem length_le_itemLines (texts : List (List Char)) :
    texts.length ≤ (itemLines texts).length := by
  rw [itemLines, List.length_flatMap]
  refine le_trans (List.length_map _).ge (List.length_le_sum_of_one_le _ fun n hn => ?_)
  obtain ⟨text, -, rfl⟩ := List.mem_map.mp hn
  simp

/-- Items are read from lines of their own. -/
theorem items?_lines {texts : List (List Char)} {vs : List Setting}
    (h : List.Forall₂ Scalar texts vs) {fuel : ℕ} (hfuel : texts.length < fuel) (depth : ℕ)
    (rest : List Char) :
    items? fuel depth ('\n' :: (itemLines texts ++ ']' :: rest)) = some (vs, rest) := by
  induction h generalizing fuel with
  | nil =>
      obtain ⟨fuel, rfl⟩ : ∃ n, fuel = n + 1 := ⟨fuel - 1, by omega⟩
      rfl
  | @cons text v texts vs hv hvs ih =>
      rw [List.length_cons] at hfuel
      obtain ⟨fuel, rfl⟩ : ∃ n, fuel = n + 2 := ⟨fuel - 2, by omega⟩
      have hnext := ih (show texts.length < fuel + 1 by omega)
      generalize hafter : '\n' :: (itemLines texts ++ ']' :: rest) = after at hnext
      rw [itemLines_cons, hafter, items?_first hv (.inl rfl), if_pos rfl, hnext]
      · rfl
      · simp only [List.length_cons, skipSpace_line, skipSpace_blank]
        exact hv.skipSpace _ _

theorem forall₂_of_mapM {items : List Setting} {texts : List (List Char)}
    (h : items.mapM scalar? = some texts) (hheld : ∀ v ∈ items, Held v) :
    List.Forall₂ Scalar texts (items.map plain) := by
  induction items generalizing texts with
  | nil =>
      cases h
      exact .nil
  | cons v items ih =>
      obtain ⟨hv, hitems⟩ := List.forall_mem_cons.mp hheld
      simp only [List.mapM_cons, bind, Option.bind_eq_some_iff] at h
      obtain ⟨text, htext, texts', htexts, h⟩ := h
      cases h
      exact .cons (scalar_of_scalar? htext hv) (ih htexts hitems)

theorem value?_bracket (fuel depth : ℕ) (cs : List Char) :
    value? (fuel + 1) (depth + 1) ('[' :: cs) =
      (items? fuel depth cs).map fun found => (.list found.1, found.2) := rfl

/-- A list is read as the list of its items. -/
theorem value?_list {items : List Setting} {text : List Char} (h : list? items = some text)
    (hheld : ∀ v ∈ items, Held v) {fuel : ℕ} (hfuel : text.length ≤ fuel) (depth : ℕ)
    (rest : List Char) :
    value? (fuel + 1) (depth + 1) (text ++ rest) = some (.list (items.map plain), rest) := by
  simp only [list?, bind, Option.bind_eq_some_iff] at h
  obtain ⟨texts, htexts, h⟩ := h
  have hscalars := forall₂_of_mapM htexts hheld
  generalize items.map plain = vs at hscalars ⊢
  split at h
  · cases h
    cases hscalars
    obtain ⟨fuel, rfl⟩ := Nat.exists_eq_add_of_le' (show 1 ≤ fuel from le_trans (by decide) hfuel)
    rfl
  next text =>
    cases h
    obtain ⟨v, others, hv, hothers, rfl⟩ := List.forall₂_cons_left_iff.mp hscalars
    obtain rfl := List.forall₂_nil_left_iff.mp hothers
    obtain ⟨fuel, rfl⟩ := Nat.exists_eq_add_of_le' (show 2 ≤ fuel by simp at hfuel; omega)
    rw [List.cons_append, List.cons_append, value?_bracket, List.append_assoc,
      List.singleton_append, items?_first hv (.inr rfl) (hv.skipSpace _ _)]
    rfl
  next =>
    cases h
    have htext : "[\n".toList ++ itemLines texts ++ [']'] ++ rest =
        '[' :: '\n' :: (itemLines texts ++ ']' :: rest) := by simp
    have hlength := length_le_itemLines texts
    change value? (fuel + 1) (depth + 1) ("[\n".toList ++ itemLines texts ++ [']'] ++ rest) = _
    rw [htext, value?_bracket, items?_lines hscalars _ depth rest]
    · rfl
    · change ("[\n".toList ++ itemLines texts ++ [']']).length ≤ fuel at hfuel
      simp only [List.length_append, List.length_singleton] at hfuel
      omega

/-! ## Values of any kind -/

/-- A text that is read as a value after an equals sign. -/
structure Written (text : List Char) (v : Setting) : Prop where
  head : ∃ c cs, text = c :: cs ∧ isBlank c = false
  value {rest : List Char} (hrest : Closes rest) {fuel : ℕ} (hfuel : text.length ≤ fuel)
    (depth : ℕ) :
    value? (fuel + 1) (depth + 1) (text ++ rest) = some (v, rest)

theorem Scalar.written {text : List Char} {v : Setting} (h : Scalar text v) : Written text v where
  head := by
    obtain ⟨c, cs, htext, hc⟩ := h.head
    refine ⟨c, cs, htext, ?_⟩
    simp only [List.mem_cons, not_or] at hc
    simp [isBlank, hc.1, hc.2.1]
  value hrest _ _ depth := h.value hrest _ (depth + 1)

theorem written_of_list? {items : List Setting} {text : List Char} (h : list? items = some text)
    (hheld : ∀ v ∈ items, Held v) : Written text (.list (items.map plain)) where
  head := by
    simp only [list?, bind, Option.bind_eq_some_iff] at h
    obtain ⟨texts, -, h⟩ := h
    split at h
    · cases h
      exact ⟨_, _, rfl, rfl⟩
    · cases h
      exact ⟨_, _, rfl, rfl⟩
    · cases h
      exact ⟨_, _, rfl, rfl⟩
  value _ _ hfuel depth := value?_list h hheld hfuel depth _

end LinkTuner.Toml

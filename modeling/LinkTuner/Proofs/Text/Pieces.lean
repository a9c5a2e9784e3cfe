import LinkTuner.Text.Blank
import Mathlib.Data.List.TakeWhile

/-!
# Pieces of a line

Cutting undoes joining where the separator stands in no piece, and nothing is trimmed from text
without the characters that are trimmed. What is cut or trimmed consists of characters of the whole.
Cutting and trimming are each determined by what they do: `split_eq_iff`, `trimEndBy_eq_iff` and
`trimBy_eq_iff` say when a given result is theirs.
-/

namespace LinkTuner.Text

variable {sep : Char}

/-! ## Cutting -/

theorem split_of_not_mem {piece : List Char} (h : sep ∉ piece) : split sep piece = [piece] := by
  induction piece with
  | nil => rfl
  | cons c cs ih =>
      rw [List.mem_cons, not_or] at h
      rw [split, if_neg (Ne.symm h.1), ih h.2]

theorem split_append_sep {piece : List Char} (h : sep ∉ piece) (cs : List Char) :
    split sep (piece ++ sep :: cs) = piece :: split sep cs := by
  induction piece with
  | nil => simp [split]
  | cons c piece ih =>
      rw [List.mem_cons, not_or] at h
      rw [List.cons_append, split, if_neg (Ne.symm h.1), ih h.2]

/-- Cutting gives the pieces back if the separator stands in none of them. -/
theorem split_join {pieces : List (List Char)} (hne : pieces ≠ [])
    (h : ∀ piece ∈ pieces, sep ∉ piece) : split sep (join sep pieces) = pieces := by
  induction pieces with
  | nil => exact absurd rfl hne
  | cons piece pieces ih =>
      obtain ⟨hpiece, hpieces⟩ := List.forall_mem_cons.mp h
      cases pieces with
      | nil => exact split_of_not_mem hpiece
      | cons next pieces =>
          rw [join, split_append_sep hpiece, ih (List.cons_ne_nil _ _) hpieces]

theorem join_concat {pieces : List (List Char)} (hne : pieces ≠ []) (piece : List Char) :
    join sep (pieces ++ [piece]) = join sep pieces ++ sep :: piece := by
  induction pieces with
  | nil => exact absurd rfl hne
  | cons first pieces ih =>
      cases pieces with
      | nil => rfl
      | cons next pieces =>
          have htail := ih (List.cons_ne_nil _ _)
          rw [List.cons_append] at htail
          rw [List.cons_append, List.cons_append, join, htail, join, List.append_assoc,
            List.cons_append]

theorem mem_join {pieces : List (List Char)} {c : Char} (h : c ∈ join sep pieces) :
    c = sep ∨ ∃ piece ∈ pieces, c ∈ piece := by
  induction pieces with
  | nil => cases h
  | cons piece pieces ih =>
      cases pieces with
      | nil => exact .inr ⟨piece, List.mem_singleton_self _, h⟩
      | cons next pieces =>
          rw [join, List.mem_append, List.mem_cons] at h
          obtain hmem | hsep | hmem := h
          · exact .inr ⟨piece, List.mem_cons_self, hmem⟩
          · exact .inl hsep
          · obtain hsep | ⟨piece', hpiece', hc⟩ := ih hmem
            · exact .inl hsep
            · exact .inr ⟨piece', List.mem_cons_of_mem _ hpiece', hc⟩

theorem mem_join_of_mem {pieces : List (List Char)} {piece : List Char} (h : piece ∈ pieces)
    {c : Char} (hc : c ∈ piece) : c ∈ join sep pieces := by
  induction pieces with
  | nil => cases h
  | cons first pieces ih =>
      cases pieces with
      | nil =>
          rw [List.mem_singleton] at h
          exact h ▸ hc
      | cons next pieces =>
          rw [join, List.mem_append, List.mem_cons]
          obtain rfl | hmem := List.mem_cons.mp h
          · exact .inl hc
          · exact .inr (.inr (ih hmem))

/-- A piece consists of characters of the line. -/
theorem mem_of_mem_split {cs piece : List Char} (h : piece ∈ split sep cs) {c : Char}
    (hc : c ∈ piece) : c ∈ cs := by
  rw [← join_split sep cs]
  exact mem_join_of_mem h hc

/-- The separator is where the cuts are. -/
theorem not_mem_of_mem_split {cs piece : List Char} (h : piece ∈ split sep cs) : sep ∉ piece := by
  induction cs generalizing piece with
  | nil =>
      rw [split, List.mem_singleton] at h
      simp [h]
  | cons c cs ih =>
      rw [split] at h
      split_ifs at h with hc
      · obtain rfl | hmem := List.mem_cons.mp h
        · exact List.not_mem_nil
        · exact ih hmem
      · cases hs : split sep cs with
        | nil => exact absurd hs (split_ne_nil sep cs)
        | cons first pieces =>
            simp only [hs, List.mem_cons] at h
            obtain rfl | hmem := h
            · rw [List.mem_cons, not_or]
              exact ⟨Ne.symm hc, ih (hs ▸ List.mem_cons_self)⟩
            · exact ih (hs ▸ List.mem_cons_of_mem _ hmem)

theorem split_eq_iff {cs : List Char} {pieces : List (List Char)} :
    split sep cs = pieces ↔
      pieces ≠ [] ∧ (∀ piece ∈ pieces, sep ∉ piece) ∧ join sep pieces = cs := by
  constructor
  · rintro rfl
    exact ⟨split_ne_nil sep cs, fun piece => not_mem_of_mem_split, join_split sep cs⟩
  · rintro ⟨hne, hsep, rfl⟩
    exact split_join hne hsep

/-! ## Trimming -/

variable {p : Char → Bool} {cs : List Char}

theorem dropWhile_eq_self (h : ∀ c ∈ cs, p c = false) : cs.dropWhile p = cs := by
  cases cs with
  | nil => rfl
  | cons c cs => exact List.dropWhile_cons_of_neg (by simp [h c])

theorem trimBy_eq_self (h : ∀ c ∈ cs, p c = false) : trimBy p cs = cs := by
  rw [trimBy, dropWhile_eq_self h, dropWhile_eq_self (by simpa using h), List.reverse_reverse]

theorem trimEndBy_eq_self (h : ∀ c ∈ cs, p c = false) : trimEndBy p cs = cs := by
  rw [trimEndBy, dropWhile_eq_self (by simpa using h), List.reverse_reverse]

theorem mem_of_mem_trimEndBy {c : Char} (h : c ∈ trimEndBy p cs) : c ∈ cs := by
  rw [trimEndBy, List.mem_reverse] at h
  exact List.mem_reverse.mp ((List.dropWhile_sublist p).subset h)

theorem mem_of_mem_trimBy {c : Char} (h : c ∈ trimBy p cs) : c ∈ cs := by
  have hend : c ∈ trimEndBy p (cs.dropWhile p) := h
  exact (List.dropWhile_sublist p).subset (mem_of_mem_trimEndBy hend)

/-- Text that ends in characters of the class, and in none of them before. -/
structure EndsWith (p : Char → Bool) (cs kept : List Char) : Prop where
  append : ∃ ends, cs = kept ++ ends ∧ ∀ c ∈ ends, p c = true
  last : ∀ c ∈ kept.getLast?, p c = false

/-- Text with characters of the class around it, and none of them inside at either end. -/
structure Encloses (p : Char → Bool) (cs kept : List Char) : Prop where
  append : ∃ before after, cs = before ++ kept ++ after ∧ ∀ c ∈ before ++ after, p c = true
  first : ∀ c ∈ kept.head?, p c = false
  last : ∀ c ∈ kept.getLast?, p c = false

theorem dropWhile_eq_iff {kept : List Char} : cs.dropWhile p = kept ↔
    (∃ before, cs = before ++ kept ∧ ∀ c ∈ before, p c = true) ∧
      ∀ c ∈ kept.head?, p c = false := by
  constructor
  · rintro rfl
    refine ⟨⟨cs.takeWhile p, List.takeWhile_append_dropWhile.symm, ?_⟩, ?_⟩
    · exact fun c hc => List.mem_takeWhile_imp hc
    · intro c hc
      simpa only [Option.mem_def.mp hc] using List.head?_dropWhile_not p cs
  · rintro ⟨⟨before, rfl, hbefore⟩, hfirst⟩
    rw [List.dropWhile_append_of_pos hbefore]
    cases kept with
    | nil => rfl
    | cons c kept => exact List.dropWhile_cons_of_neg (by simp [hfirst c rfl])

theorem trimEndBy_eq_iff {kept : List Char} : trimEndBy p cs = kept ↔ EndsWith p cs kept := by
  rw [trimEndBy, List.reverse_eq_iff, dropWhile_eq_iff, List.head?_reverse]
  constructor
  · rintro ⟨⟨ends, hends, hclass⟩, hlast⟩
    refine ⟨⟨ends.reverse, ?_, fun c hc => hclass c (List.mem_reverse.mp hc)⟩, hlast⟩
    rw [← List.reverse_reverse cs, hends, List.reverse_append, List.reverse_reverse]
  · rintro ⟨⟨ends, rfl, hclass⟩, hlast⟩
    refine ⟨⟨ends.reverse, List.reverse_append, ?_⟩, hlast⟩
    exact fun c hc => hclass c (List.mem_reverse.mp hc)

theorem trimBy_eq_iff {kept : List Char} : trimBy p cs = kept ↔ Encloses p cs kept := by
  change trimEndBy p (cs.dropWhile p) = kept ↔ _
  rw [trimEndBy_eq_iff]
  constructor
  · rintro ⟨⟨after, hafter, hclass⟩, hlast⟩
    obtain ⟨⟨before, rfl, hbefore⟩, hfirst⟩ := dropWhile_eq_iff.mp hafter
    refine ⟨⟨before, after, (List.append_assoc ..).symm, ?_⟩, ?_, hlast⟩
    · exact List.forall_mem_append.mpr ⟨hbefore, hclass⟩
    · intro c hc
      exact hfirst c (by rw [List.head?_append, Option.mem_def.mp hc, Option.some_or]; rfl)
  · rintro ⟨⟨before, after, rfl, hclass⟩, hfirst, hlast⟩
    obtain ⟨hbefore, hafter⟩ := List.forall_mem_append.mp hclass
    rw [List.append_assoc, List.dropWhile_append_of_pos hbefore]
    cases kept with
    | nil =>
        -- Nothing is kept: what stands after it goes with what stands before it.
        refine ⟨⟨[], ?_, List.forall_mem_nil _⟩, hlast⟩
        exact dropWhile_eq_iff.mpr ⟨⟨after, by simp, hafter⟩, by simp⟩
    | cons c kept =>
        refine ⟨⟨after, ?_, hafter⟩, hlast⟩
        exact List.dropWhile_cons_of_neg (by simp [hfirst c rfl])

end LinkTuner.Text

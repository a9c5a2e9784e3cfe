/-!
# White space, control characters and the pieces of a line

The classes are those of the Unicode properties `White_Space` and `Cc`. A line is cut at a
separator into one piece more than it has separators, so `join` undoes `split`.
-/

namespace LinkTuner.Text

/-- White space: what is trimmed from the ends of a field. -/
def isBlank (c : Char) : Bool :=
  let n := c.toNat
  (9 ≤ n && n ≤ 13) || n == 0x20 || n == 0x85 || n == 0xa0 || n == 0x1680 ||
    (0x2000 ≤ n && n ≤ 0x200a) || n == 0x2028 || n == 0x2029 || n == 0x202f || n == 0x205f ||
    n == 0x3000

/-- Control characters: the two blocks below `0x20` and from `0x7f` to `0x9f`. -/
def isControl (c : Char) : Bool :=
  let n := c.toNat
  n < 0x20 || (0x7f ≤ n && n ≤ 0x9f)

/-- The white space of the basic block, without the vertical tab. -/
def isPlainBlank (c : Char) : Bool :=
  c == ' ' || c == '\t' || c == '\n' || c == '\x0c' || c == '\r'

/-- Every character that the core library counts as white space is blank. -/
theorem isBlank_of_isWhitespace {c : Char} (h : c.isWhitespace = true) : isBlank c = true := by
  simp only [Char.isWhitespace, Bool.or_eq_true, decide_eq_true_eq] at h
  rcases h with ((rfl | rfl) | rfl) | rfl <;> decide

/-- The characters that remain when those of the class are taken away at both ends. -/
def trimBy (p : Char → Bool) (cs : List Char) : List Char :=
  ((cs.dropWhile p).reverse.dropWhile p).reverse

/-- A field without the white space around it. -/
def trim (cs : List Char) : List Char := trimBy isBlank cs

/-- The characters that remain when those of the class are taken away at the end only. -/
def trimEndBy (p : Char → Bool) (cs : List Char) : List Char :=
  (cs.reverse.dropWhile p).reverse

/-- The pieces between separators, never an empty list. -/
def split (sep : Char) : List Char → List (List Char)
  | [] => [[]]
  | c :: cs =>
    if c = sep then [] :: split sep cs
    else match split sep cs with
      | [] => [[c]]
      | piece :: pieces => (c :: piece) :: pieces

/-- The pieces with one separator between each two neighbours. -/
def join (sep : Char) : List (List Char) → List Char
  | [] => []
  | [piece] => piece
  | piece :: next :: pieces => piece ++ sep :: join sep (next :: pieces)

@[simp] theorem split_ne_nil (sep : Char) (cs : List Char) : split sep cs ≠ [] := by
  cases cs with
  | nil => simp [split]
  | cons c cs =>
    simp only [split]
    split
    · simp
    · split <;> simp

/-- No character is lost by cutting. -/
theorem join_split (sep : Char) (cs : List Char) : join sep (split sep cs) = cs := by
  induction cs with
  | nil => rfl
  | cons c cs ih =>
    cases hs : split sep cs with
    | nil => exact absurd hs (split_ne_nil sep cs)
    | cons piece pieces =>
      rw [hs] at ih
      by_cases h : c = sep
      · subst h
        simp only [split, hs, if_true]
        rw [join, ih]
        rfl
      · simp only [split, hs, if_neg h]
        cases pieces with
        | nil => simpa [join] using ih
        | cons next pieces => simpa [join] using ih

end LinkTuner.Text

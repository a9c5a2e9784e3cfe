import LinkTuner.Arith
import Mathlib.Data.List.Induction
import Mathlib.Tactic.SplitIfs

/-!
# The greatest of a list

Two searches are made for it. One looks for a number and passes over undefined ones; what it finds
is in the list, and defined if a number of the list is. The other looks for a place, through an
order in which any two elements can be compared, and finds the last one that none exceeds.
-/

namespace LinkTuner

variable {α : Type}

namespace Arith

variable [Arith α]

theorem greater_eq_or (x y : α) : greater x y = x ∨ greater x y = y := by
  unfold greater
  split_ifs
  · exact Or.inl rfl
  · exact Or.inr rfl

theorem foldl_greater_mem (x : α) (xs : List α) : xs.foldl greater x ∈ x :: xs := by
  induction xs generalizing x with
  | nil => exact List.mem_singleton_self x
  | cons y xs ih =>
      rw [List.foldl_cons]
      rcases greater_eq_or x y with h | h
      · rw [h]
        exact (List.mem_cons.mp (ih x)).elim (fun heq => by simp [heq]) fun hmem => by simp [hmem]
      · rw [h]
        exact List.mem_cons_of_mem x (ih y)

theorem greatest_mem {xs : List α} (h : xs ≠ []) : greatest xs ∈ xs := by
  obtain ⟨x, rest, rfl⟩ := List.exists_cons_of_ne_nil h
  exact foldl_greater_mem x rest

/-- Undefined numbers are below, equal to and above none, and all others are equal to themselves. -/
class Comparing (α : Type) [Arith α] : Prop where
  le_self {x : α} : isUndefined x = false → le x x = true
  defined_of_le {x y : α} : le x y = true → isUndefined x = false
  defined_of_lt {x y : α} : lt x y = true → isUndefined y = false

section

variable [Comparing α]

theorem isUndefined_greater (x y : α) :
    isUndefined (greater x y) = (isUndefined x && isUndefined y) := by
  unfold greater
  cases hy : isUndefined y with
  | true => simp
  | false =>
      cases hlt : lt y x with
      | true => simp [Comparing.defined_of_lt hlt]
      | false => simp [hy]

theorem isUndefined_foldl_greater (x : α) (xs : List α) :
    isUndefined (xs.foldl greater x) = (isUndefined x && xs.all isUndefined) := by
  induction xs generalizing x with
  | nil => simp
  | cons y xs ih => rw [List.foldl_cons, ih, isUndefined_greater, List.all_cons, Bool.and_assoc]

/-- The greatest number is undefined only if there is no other one. -/
theorem isUndefined_greatest {xs : List α} (h : xs ≠ []) :
    isUndefined (greatest xs) = xs.all isUndefined := by
  obtain ⟨x, rest, rfl⟩ := List.exists_cons_of_ne_nil h
  exact isUndefined_foldl_greater x rest

end

/-- Of two defined numbers one is at most the other. -/
class Ordered (α : Type) [Arith α] : Prop extends Comparing α where
  le_trans {x y z : α} : le x y = true → le y z = true → le x z = true
  le_of_lt {x y : α} : lt x y = true → le x y = true
  le_of_not_lt {x y : α} : isUndefined x = false → isUndefined y = false → lt x y = false →
    le y x = true

section

variable [Ordered α]

theorem le_greater_left {x : α} (h : isUndefined x = false) (y : α) :
    le x (greater x y) = true := by
  unfold greater
  split
  case isTrue => exact Comparing.le_self h
  case isFalse hother =>
    simp only [Bool.or_eq_true, not_or, Bool.not_eq_true] at hother
    exact Ordered.le_of_not_lt hother.1 h hother.2

theorem le_greater_right (x : α) {y : α} (h : isUndefined y = false) :
    le y (greater x y) = true := by
  unfold greater
  split
  case isTrue hlt => exact Ordered.le_of_lt (by simpa [h] using hlt)
  case isFalse => exact Comparing.le_self h

theorem le_foldl_greater {x : α} (h : isUndefined x = false) (xs : List α) :
    le x (xs.foldl greater x) = true := by
  induction xs generalizing x with
  | nil => exact Comparing.le_self h
  | cons y xs ih =>
      have hdefined : isUndefined (greater x y) = false := by simp [isUndefined_greater, h]
      exact Ordered.le_trans (le_greater_left h y) (ih hdefined)

theorem le_foldl_greater_of_mem (x : α) {xs : List α} {y : α} (hy : y ∈ xs)
    (h : isUndefined y = false) : le y (xs.foldl greater x) = true := by
  induction xs generalizing x with
  | nil => cases hy
  | cons z xs ih =>
      rcases List.mem_cons.mp hy with rfl | hy
      · have hdefined : isUndefined (greater x y) = false := by simp [isUndefined_greater, h]
        exact Ordered.le_trans (le_greater_right x h) (le_foldl_greater hdefined xs)
      · exact ih (greater x z) hy

/-- No defined number exceeds the greatest one. -/
theorem le_greatest {xs : List α} {y : α} (hy : y ∈ xs) (h : isUndefined y = false) :
    le y (greatest xs) = true := by
  cases xs with
  | nil => cases hy
  | cons x xs =>
      rcases List.mem_cons.mp hy with rfl | hy
      · exact le_foldl_greater h xs
      · exact le_foldl_greater_of_mem x hy h

end

end Arith

/-- No element exceeds the one at a place, and those after it are below it. -/
structure IsLastGreatest (le : α → α → Bool) (xs : List α) (i : Nat) (x : α) : Prop where
  get : xs[i]? = some x
  le_of_mem : ∀ y ∈ xs, le y x = true
  below : ∀ j y, i < j → xs[j]? = some y → le x y = false

variable {le : α → α → Bool}

theorem isLastGreatest_singleton (hrefl : ∀ x, le x x = true) (x : α) :
    IsLastGreatest le [x] 0 x where
  get := rfl
  le_of_mem y hy := by
    rw [List.mem_singleton.mp hy]
    exact hrefl x
  below j y hj hy := by
    have hlt : j < 1 := (List.getElem?_eq_some_iff.mp hy).1
    omega

/-- One more element takes the place of the greatest if that is not above it. -/
theorem IsLastGreatest.append (htrans : ∀ x y z, le x y = true → le y z = true → le x z = true)
    (htotal : ∀ x y, le x y = true ∨ le y x = true) {xs : List α} {i : Nat} {x : α}
    (h : IsLastGreatest le xs i x) (y : α) :
    if le x y then IsLastGreatest le (xs ++ [y]) xs.length y
    else IsLastGreatest le (xs ++ [y]) i x := by
  have hi : i < xs.length := (List.getElem?_eq_some_iff.mp h.get).1
  split_ifs with hxy
  · constructor
    · exact List.getElem?_concat_length
    · intro z hz
      rcases List.mem_append.mp hz with hz | hz
      · exact htrans z x y (h.le_of_mem z hz) hxy
      · rw [List.mem_singleton.mp hz]
        exact (htotal y y).elim id id
    · intro j z hj hz
      have hlt := (List.getElem?_eq_some_iff.mp hz).1
      rw [List.length_append, List.length_singleton] at hlt
      omega
  · have hyx : le y x = true := (htotal x y).resolve_left hxy
    constructor
    · rw [List.getElem?_append_left hi]
      exact h.get
    · intro z hz
      rcases List.mem_append.mp hz with hz | hz
      · exact h.le_of_mem z hz
      · rwa [List.mem_singleton.mp hz]
    · intro j z hj hz
      rcases Nat.lt_or_ge j xs.length with hlt | hge
      · rw [List.getElem?_append_left hlt] at hz
        exact h.below j z hj hz
      · rw [List.getElem?_append_right hge] at hz
        have hz' := List.mem_of_getElem? hz
        rw [List.mem_singleton.mp hz']
        exact Bool.eq_false_iff.mpr hxy

/-- The search after one more element: the best place so far, the element there and the place it has
come to. -/
def advance (le : α → α → Bool) (best : Nat × α × Nat) (y : α) : Nat × α × Nat :=
  if le best.2.1 y then (best.2.2 + 1, y, best.2.2 + 1) else (best.1, best.2.1, best.2.2 + 1)

theorem lastGreatest_cons (x : α) (xs : List α) :
    lastGreatest le (x :: xs) = some (xs.foldl (advance le) (0, x, 0)).1 := rfl

theorem isLastGreatest_foldl (htrans : ∀ x y z, le x y = true → le y z = true → le x z = true)
    (htotal : ∀ x y, le x y = true ∨ le y x = true) (x : α) (xs : List α) :
    (xs.foldl (advance le) (0, x, 0)).2.2 = xs.length ∧
      IsLastGreatest le (x :: xs) (xs.foldl (advance le) (0, x, 0)).1
        (xs.foldl (advance le) (0, x, 0)).2.1 := by
  induction xs using List.reverseRecOn with
  | nil => exact ⟨rfl, isLastGreatest_singleton (fun z => (htotal z z).elim id id) x⟩
  | append_singleton xs y ih =>
      obtain ⟨hlength, hbest⟩ := ih
      have hnext := hbest.append htrans htotal y
      rw [List.foldl_append, List.foldl_cons, List.foldl_nil, advance]
      split_ifs at hnext ⊢
      · exact ⟨by simp [hlength], by simpa [hlength] using hnext⟩
      · exact ⟨by simp [hlength], hnext⟩

/-- The place found is the last of the greatest. -/
theorem isLastGreatest_of_lastGreatest
    (htrans : ∀ x y z, le x y = true → le y z = true → le x z = true)
    (htotal : ∀ x y, le x y = true ∨ le y x = true) {xs : List α} (hxs : xs ≠ []) :
    ∃ i x, lastGreatest le xs = some i ∧ IsLastGreatest le xs i x := by
  obtain ⟨x, rest, rfl⟩ := List.exists_cons_of_ne_nil hxs
  exact ⟨_, _, lastGreatest_cons x rest, (isLastGreatest_foldl htrans htotal x rest).2⟩

theorem foldl_advance_map {β : Type} (f : β → α) (i n : Nat) (x : β) (xs : List β) :
    ((xs.map f).foldl (advance le) (i, f x, n)).1 =
      (xs.foldl (advance fun y z => le (f y) (f z)) (i, x, n)).1 := by
  induction xs generalizing i n x with
  | nil => rfl
  | cons y xs ih =>
      rw [List.map_cons, List.foldl_cons, List.foldl_cons, advance, advance]
      split
      · exact ih _ _ y
      · exact ih _ _ x

/-- Elements can be seen through a function. -/
theorem lastGreatest_map {β : Type} (f : β → α) (xs : List β) :
    lastGreatest le (xs.map f) = lastGreatest (fun x y => le (f x) (f y)) xs := by
  cases xs with
  | nil => rfl
  | cons x xs => exact congrArg some (foldl_advance_map f 0 0 x xs)

/-- There is only one such place. -/
theorem IsLastGreatest.unique {xs : List α} {i j : Nat} {x y : α} (hi : IsLastGreatest le xs i x)
    (hj : IsLastGreatest le xs j y) : i = j := by
  have hle := hi.le_of_mem y (List.mem_of_getElem? hj.get)
  have hge := hj.le_of_mem x (List.mem_of_getElem? hi.get)
  rcases Nat.lt_trichotomy i j with hlt | heq | hgt
  · exact absurd hge (Bool.eq_false_iff.mp (hi.below j y hlt hj.get))
  · exact heq
  · exact absurd hle (Bool.eq_false_iff.mp (hj.below i x hgt hi.get))

end LinkTuner

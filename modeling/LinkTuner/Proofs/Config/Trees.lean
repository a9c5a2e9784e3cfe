import LinkTuner.Proofs.Config.Entries
import Mathlib.Data.List.Induction
import Mathlib.Data.List.Nodup

/-!
# Trees laid over each other

Tables are joined name by name, and where one of two settings is no table the upper one replaces the
lower. Main statement: what lies at the end of a path in several trees laid over each other is found
in the uppermost tree that has the path, unless a tree above that one has something other than a
table on the way.
-/

namespace LinkTuner.Setting

open Named

/-- A tree in none of whose tables a name stands twice. -/
inductive Distinct : Setting → Prop
  | table {es : List (String × Setting)} (names : Apart es) (entries : ∀ e ∈ es, e.2.Distinct) :
      Distinct (.table es)
  | other {v : Setting} (h : ∀ es, v ≠ .table es) : Distinct v

theorem distinct_empty : (Setting.table []).Distinct := .table List.nodup_nil nofun

/-- The entries of a table. -/
def entries : Setting → List (String × Setting)
  | .table es => es
  | _ => []

theorem Distinct.apart_entries {t : Setting} (h : t.Distinct) : Apart t.entries := by
  cases h with
  | table names entries => exact names
  | other h =>
      cases t with
      | table es => exact absurd rfl (h es)
      | _ => exact List.nodup_nil

theorem Distinct.entry {t : Setting} (h : t.Distinct) {e : String × Setting} (he : e ∈ t.entries) :
    e.2.Distinct := by
  cases h with
  | table names entries => exact entries e he
  | other h =>
      cases t with
      | table es => exact absurd rfl (h es)
      | _ => cases he

theorem Distinct.nested {v : Setting} (h : v.Distinct) (path : List String) :
    (nested path v).Distinct := by
  induction path with
  | nil => exact h
  | cons name path ih => exact .table (List.nodup_singleton _) (by simpa using ih)

/-! ## One tree over another -/

section

variable {lower upper : List (String × Setting)} {name : String}

/-- What is found below a setting is joined with it. -/
theorem named?_overlayEntries (h : Apart upper) :
    named? name (overlayEntries lower upper) =
      match named? name upper with
      | none => named? name lower
      | some v => some ((named? name lower).elim v (overlay · v)) := by
  induction upper generalizing lower with
  | nil => rfl
  | cons e upper ih =>
      obtain ⟨k, v⟩ := e
      obtain ⟨hk, hupper⟩ := apart_cons.mp h
      rw [overlayEntries, ih hupper]
      simp only [named?_eq, put_eq, value?_assign, value?_cons] at hk ⊢
      by_cases hname : k = name
      · subst hname
        rw [value?_eq_none_iff.mpr hk]
        simp only [if_true]
        cases value? k lower <;> rfl
      · simp only [if_neg hname]

theorem apart_overlayEntries (h : Apart lower) : Apart (overlayEntries lower upper) := by
  induction upper generalizing lower with
  | nil => exact h
  | cons e upper ih =>
      rw [overlayEntries, put_eq]
      exact ih (h.assign _ _)

end

theorem Distinct.overlay {l u : Setting} (hl : l.Distinct) (hu : u.Distinct) :
    (overlay l u).Distinct := by
  induction hu generalizing l with
  | other h =>
      rw [Setting.overlay]
      · exact .other h
      · exact fun _ upper _ heq => h upper heq
  | @table upper names entries ih =>
      cases hl with
      | other h =>
          rw [Setting.overlay]
          · exact .table names entries
          · exact fun lower _ heq => absurd heq (h lower)
      | @table lower hlower hentries =>
          rw [Setting.overlay]
          refine .table (apart_overlayEntries hlower) ?_
          clear names
          induction upper generalizing lower with
          | nil => exact hentries
          | cons e upper ihupper =>
              obtain ⟨k, v⟩ := e
              rw [overlayEntries, put_eq]
              have hv : (k, v) ∈ (k, v) :: upper := List.mem_cons_self
              refine ihupper (fun e he => entries e (List.mem_cons_of_mem _ he))
                (fun e he => ih e (List.mem_cons_of_mem _ he)) (hlower.assign _ _) ?_
              intro e he
              obtain rfl | he := mem_assign he
              · cases hw : named? k lower with
                | none => exact entries _ hv
                | some w => exact ih _ hv (hentries _ (mem_of_value? hw))
              · exact hentries e he

/-! ## Paths -/

/-- Whether something other than a table lies on the way of a path. -/
def hides : List String → Setting → Bool
  | [], _ => false
  | name :: path, .table es => (named? name es).elim false (hides path)
  | _ :: _, _ => true

/-- What a tree lets be found at a path above something else: its own setting, or else what is below
it unless it hides that. -/
def atop (path : List String) (t : Setting) (below : Option Setting) : Option Setting :=
  match t.at? path with
  | some v => some v
  | none => if t.hides path then none else below

/-- Finding a path in trees, the uppermost first. -/
def found? (path : List String) (trees : List Setting) : Option Setting :=
  trees.foldr (atop path) none

theorem atop_none (path : List String) (t : Setting) : t.atop path none = t.at? path := by
  rw [atop, ite_self]
  cases t.at? path <;> rfl

theorem atop_table (name : String) (path : List String) (es : List (String × Setting))
    (below : Option Setting) :
    (Setting.table es).atop (name :: path) below =
      match named? name es with
      | none => below
      | some v => v.atop path below := by
  rw [atop, at?, hides]
  cases named? name es <;> rfl

theorem exists_of_found? {path : List String} {trees : List Setting} {v : Setting}
    (h : found? path trees = some v) : ∃ t ∈ trees, t.at? path = some v := by
  induction trees with
  | nil => cases h
  | cons t trees ih =>
      rw [found?, List.foldr_cons, atop] at h
      cases hat : t.at? path with
      | some w =>
          rw [hat] at h
          exact ⟨t, List.mem_cons_self, hat.trans h⟩
      | none =>
          rw [hat] at h
          dsimp only at h
          split_ifs at h
          obtain ⟨t', ht', hv⟩ := ih h
          exact ⟨t', List.mem_cons_of_mem _ ht', hv⟩

/-- Where nothing is hidden the first tree that has the path decides. -/
theorem found?_eq_findSome? {path : List String} {trees : List Setting}
    (h : ∀ t ∈ trees, t.hides path = false) :
    found? path trees = trees.findSome? (at? path) := by
  induction trees with
  | nil => rfl
  | cons t trees ih =>
      have ih : trees.foldr (atop path) none = _ := ih fun t ht => h t (List.mem_cons_of_mem _ ht)
      rw [found?, List.foldr_cons, ih, atop, h t List.mem_cons_self, List.findSome?_cons]
      cases t.at? path <;> rfl

/-- Settings that are the same unless both are tables. -/
inductive Alike : Option Setting → Option Setting → Prop
  | same (a : Option Setting) : Alike a a
  | tables (es es' : List (String × Setting)) : Alike (some (.table es)) (some (.table es'))

theorem Alike.trans {a b c : Option Setting} (hab : Alike a b) (hbc : Alike b c) : Alike a c := by
  cases hab with
  | same => exact hbc
  | tables es es' =>
      cases hbc with
      | same => exact .tables es es'
      | tables _ es'' => exact .tables es es''

theorem Alike.atop {a b : Option Setting} (h : Alike a b) (path : List String) (t : Setting) :
    Alike (t.atop path a) (t.atop path b) := by
  rw [Setting.atop, Setting.atop]
  cases t.at? path with
  | some v => exact .same _
  | none =>
      dsimp only
      split_ifs
      · exact .same _
      · exact h

/-- What is no table is the same. -/
theorem Alike.eq_some {a b : Option Setting} {v : Setting} (h : Alike a b) (ha : a = some v)
    (hv : ∀ es, v ≠ .table es) : b = some v := by
  cases h with
  | same => exact ha
  | tables es es' => exact absurd (Option.some.inj ha).symm (hv es)

theorem Alike.eq_none {a b : Option Setting} (h : Alike a b) (ha : a = none) : b = none := by
  cases h with
  | same => exact ha
  | tables => cases ha

/-- Only in a table is there anything at the end of a longer path. -/
theorem at?_cons_of_other {v : Setting} (h : ∀ es, v ≠ .table es) (name : String)
    (path : List String) : v.at? (name :: path) = none ∧ v.hides (name :: path) = true := by
  cases v with
  | table es => exact absurd rfl (h es)
  | _ => exact ⟨rfl, rfl⟩

/-- A tree over another one lets be found what is below it. -/
theorem at?_overlay {u : Setting} (hu : u.Distinct) (l : Setting) (path : List String) :
    Alike ((overlay l u).at? path) (u.atop path (l.at? path)) := by
  induction path generalizing l u with
  | nil =>
      rw [atop, at?, at?]
      unfold overlay
      split
      · exact .tables _ _
      · exact .same _
  | cons name path ih =>
      cases hu with
      | other h =>
          obtain ⟨hnone, hhides⟩ := at?_cons_of_other h name path
          rw [overlay, atop, hnone, hhides]
          · exact .same _
          · exact fun _ upper _ heq => h upper heq
      | @table upper names entries =>
          rw [atop_table]
          by_cases hl : ∃ lower, l = .table lower
          · obtain ⟨lower, rfl⟩ := hl
            rw [overlay, at?, at?, named?_overlayEntries names]
            cases hv : named? name upper with
            | none => exact .same _
            | some v =>
                cases hw : named? name lower with
                | none =>
                    simp only [Option.elim_none, Option.bind_some, Option.bind_none, atop_none]
                    exact .same _
                | some w => exact ih (entries _ (mem_of_value? hv)) w
          · have hl : ∀ lower, l ≠ .table lower := fun lower heq => hl ⟨lower, heq⟩
            rw [overlay, (at?_cons_of_other hl name path).1, at?]
            · cases hv : named? name upper with
              | none => exact .same _
              | some v =>
                  simp only [Option.bind_some, atop_none]
                  exact .same _
            · exact fun lower _ heq => absurd heq (hl lower)

/-! ## Many trees -/

theorem layers_concat (trees : List Setting) (t : Setting) :
    layers (trees ++ [t]) = overlay (layers trees) t := by
  rw [layers, List.foldl_append]
  rfl

theorem distinct_layers {trees : List Setting} (h : ∀ t ∈ trees, t.Distinct) :
    (layers trees).Distinct := by
  induction trees using List.reverseRecOn with
  | nil => exact distinct_empty
  | append_singleton trees t ih =>
      rw [layers_concat]
      exact (ih fun t ht => h t (List.mem_append_left _ ht)).overlay (h t (by simp))

/-- Trees laid over each other let be found what is found in them from the uppermost one on. -/
theorem at?_layers {trees : List Setting} (h : ∀ t ∈ trees, t.Distinct) {path : List String}
    (hpath : path ≠ []) : Alike ((layers trees).at? path) (found? path trees.reverse) := by
  induction trees using List.reverseRecOn with
  | nil =>
      cases path with
      | nil => exact absurd rfl hpath
      | cons name path => exact .same _
  | append_singleton trees t ih =>
      have ih := ih fun t ht => h t (List.mem_append_left _ ht)
      rw [layers_concat, List.reverse_concat, found?, List.foldr_cons]
      exact (at?_overlay (h t (by simp)) _ path).trans (ih.atop path t)

end LinkTuner.Setting

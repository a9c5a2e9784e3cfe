import LinkTuner.Toml.Document
import Mathlib.Tactic.SplitIfs

/-!
# Entries by their names

Settings and documents keep their entries in lists. Main statements: an entry that is assigned is
found under its name and all others as before, and names that are all different stay so.
-/

namespace LinkTuner

namespace Named

variable {α : Type} {name k : String} {v : α} {es : List (String × α)}

/-- The entries with another value for a name, in the place of the one it had. -/
def assign (name : String) (v : α) : List (String × α) → List (String × α)
  | [] => [(name, v)]
  | e :: es => if e.1 = name then (name, v) :: es else e :: assign name v es

/-- The value of a name. -/
def value? (name : String) (es : List (String × α)) : Option α :=
  (es.find? (·.1 == name)).map (·.2)

theorem value?_cons (e : String × α) :
    value? name (e :: es) = if e.1 = name then some e.2 else value? name es := by
  by_cases h : e.1 = name <;> simp [value?, h]

theorem value?_eq_none_iff : value? name es = none ↔ name ∉ es.map Prod.fst := by
  induction es with
  | nil => simp [value?]
  | cons e es ih =>
      rw [value?_cons, List.map_cons, List.mem_cons, not_or]
      split_ifs with h
      · simp [h]
      · rw [ih]
        exact ⟨fun hmem => ⟨Ne.symm h, hmem⟩, And.right⟩

theorem mem_of_value? (h : value? name es = some v) : (name, v) ∈ es := by
  rw [value?, Option.map_eq_some_iff] at h
  obtain ⟨e, he, rfl⟩ := h
  have hname : e.1 = name := by simpa using List.find?_some he
  exact hname ▸ List.mem_of_find?_eq_some he

theorem value?_append (es' : List (String × α)) :
    value? name (es ++ es') = (value? name es).or (value? name es') := by
  rw [value?, List.find?_append]
  cases h : es.find? (·.1 == name) <;> simp [value?, h]

theorem value?_assign :
    value? name (assign k v es) = if k = name then some v else value? name es := by
  induction es with
  | nil => rw [assign, value?_cons]
  | cons e es ih =>
      rw [assign]
      split_ifs with hk hname
      · rw [value?_cons, if_pos hname]
      · rw [value?_cons, value?_cons, if_neg hname, if_neg (hk ▸ hname)]
      · rw [value?_cons, ih, if_pos ‹k = name›, if_neg (by rintro rfl; exact hk ‹k = _›.symm)]
      · rw [value?_cons, value?_cons, ih, if_neg ‹¬k = name›]

theorem assign_append (h : value? name es = none) (v : α) (es' : List (String × α)) :
    assign name v (es ++ es') = es ++ assign name v es' := by
  induction es with
  | nil => rfl
  | cons e es ih =>
      rw [value?_cons] at h
      split_ifs at h with hname
      rw [List.cons_append, assign, if_neg hname, ih h, List.cons_append]

theorem mem_assign {e : String × α} (h : e ∈ assign k v es) : e = (k, v) ∨ e ∈ es := by
  induction es with
  | nil => exact .inl (List.mem_singleton.mp h)
  | cons e' es ih =>
      rw [assign] at h
      split_ifs at h
      · exact (List.mem_cons.mp h).imp_right (List.mem_cons_of_mem _)
      · obtain rfl | h := List.mem_cons.mp h
        · exact .inr List.mem_cons_self
        · exact (ih h).imp_right (List.mem_cons_of_mem _)

/-- Entries whose names are all different. -/
def Apart (es : List (String × α)) : Prop := (es.map Prod.fst).Nodup

theorem apart_cons {e : String × α} :
    Apart (e :: es) ↔ e.1 ∉ es.map Prod.fst ∧ Apart es := by
  rw [Apart, List.map_cons, List.nodup_cons, Apart]

theorem Apart.concat (h : Apart es) (hname : value? name es = none) (v : α) :
    Apart (es ++ [(name, v)]) := by
  have hname := value?_eq_none_iff.mp hname
  rw [Apart, List.map_append, List.map_cons, List.map_nil, List.nodup_append]
  refine ⟨h, by simp, fun a ha b hb => ?_⟩
  rw [List.mem_singleton.mp hb]
  rintro rfl
  exact hname ha

theorem Apart.assign (h : Apart es) (k : String) (v : α) : Apart (assign k v es) := by
  induction es with
  | nil => simp [Apart, Named.assign]
  | cons e es ih =>
      obtain ⟨hname, hes⟩ := apart_cons.mp h
      rw [Named.assign]
      split_ifs with hk
      · exact apart_cons.mpr ⟨hk ▸ hname, hes⟩
      · refine apart_cons.mpr ⟨fun hmem => ?_, ih hes⟩
        obtain ⟨e', he', heq⟩ := List.mem_map.mp hmem
        obtain rfl | he' := mem_assign he'
        · exact hk heq.symm
        · exact hname (heq ▸ List.mem_map_of_mem he')

/-- What is kept of entries under their names is found under them. -/
theorem value?_filterMap {β : Type} {f : String × α → Option (String × β)}
    (hf : ∀ e e', f e = some e' → e'.1 = e.1) (h : Apart es) :
    value? name (es.filterMap f) = (value? name es).bind fun v => (f (name, v)).map Prod.snd := by
  induction es with
  | nil => rfl
  | cons e es ih =>
      obtain ⟨k, v⟩ := e
      obtain ⟨hname, hes⟩ := apart_cons.mp h
      have ih := ih hes
      rw [value?_cons]
      split_ifs with hk
      · obtain rfl : k = name := hk
        rw [value?_eq_none_iff.mpr hname, Option.bind_none] at ih
        rw [Option.bind_some]
        cases hfirst : f (k, v) with
        | none => rw [List.filterMap_cons_none hfirst, ih, Option.map_none]
        | some e' => rw [List.filterMap_cons_some hfirst, value?_cons, if_pos (hf _ _ hfirst),
            Option.map_some]
      · rw [← ih]
        cases hfirst : f (k, v) with
        | none => rw [List.filterMap_cons_none hfirst]
        | some e' =>
            have hne : e'.1 ≠ name := fun heq => hk ((hf _ _ hfirst).symm.trans heq)
            rw [List.filterMap_cons_some hfirst, value?_cons, if_neg hne]

end Named

open Named

theorem Setting.named?_eq (name : String) (es : List (String × Setting)) :
    named? name es = value? name es := rfl

theorem Setting.put_eq (name : String) (v : Setting) (es : List (String × Setting)) :
    put name v es = assign name v es := by
  induction es with
  | nil => rfl
  | cons e es ih => simp [put, assign, ih]

theorem Toml.node?_eq (name : String) (es : List (String × Toml.Node)) :
    Toml.node? name es = value? name es := rfl

theorem Toml.setNode_eq (name : String) (n : Toml.Node) (es : List (String × Toml.Node)) :
    Toml.setNode name n es = assign name n es := by
  induction es with
  | nil => rfl
  | cons e es ih => simp [setNode, assign, ih]

end LinkTuner

import LinkTuner.Config.Sources
import LinkTuner.Proofs.Config.Startable
import LinkTuner.Proofs.Config.Trees

/-!
# Trees of variables and options

Each variable gives a tree with one path, and so does each option of the command line. Main
statements: in the tree of all variables no name stands twice in one table, nor does one in the tree
of the options; and the variable of the log gives no tree at all.
-/

namespace LinkTuner

open Named

namespace Environment

/-! ## Values -/

theorem plain_ne_table (cs : List Char) (es : List (String × Setting)) : plain cs ≠ .table es := by
  unfold plain
  dsimp only
  split <;> exact nofun

theorem distinct_map {α : Type} {x : Except ValueFault (α × List Char)} {f : α → Setting}
    (h : ∀ a rest, x = .ok (a, rest) → (f a).Distinct) {v : Setting} {rest : List Char}
    (hread : (x.map fun (a, rest) => (f a, rest)) = .ok (v, rest)) : v.Distinct := by
  cases x with
  | error cause => cases hread
  | ok found =>
      cases hread
      exact h _ _ rfl

/-- An entry is left out when its name comes again. -/
theorem distinct_ite {es : List (String × Setting)} (h : (Setting.table es).Distinct) {v : Setting}
    (hv : v.Distinct) (k : String) :
    (Setting.table (if es.any (·.1 == k) then es else (k, v) :: es)).Distinct := by
  split_ifs with hany
  · exact h
  · cases h with
    | other h => exact absurd rfl (h es)
    | table names entries =>
        refine .table (apart_cons.mpr ⟨?_, names⟩) fun e he => ?_
        · intro hmem
          obtain ⟨e, he, heq⟩ := List.mem_map.mp hmem
          exact hany (List.any_eq_true.mpr ⟨e, he, beq_iff_eq.mpr heq⟩)
        · obtain rfl | he := List.mem_cons.mp he
          · exact hv
          · exact entries e he

/-- A value that is read has no name twice, and neither have the entries of a table. -/
theorem distinct_value (fuel : ℕ) :
    (∀ cs v rest, value fuel cs = .ok (v, rest) → v.Distinct) ∧
      ∀ cs es rest, entries fuel cs = .ok (es, rest) → (Setting.table es).Distinct := by
  induction fuel with
  | zero =>
      refine ⟨fun cs v rest h => ?_, fun cs es rest h => ?_⟩
      · cases h
      · cases h
  | succ fuel ih =>
      obtain ⟨ihvalue, ihentries⟩ := ih
      refine ⟨fun cs v rest h => ?_, fun cs es rest h => ?_⟩
      · have hskipped {x : Except ValueFault (Setting × List Char)}
            (hx : ∀ w left, x = .ok (w, left) → w.Distinct)
            (h : (x >>= fun p => pure (p.1, skip p.2)) = .ok (v, rest)) : v.Distinct := by
          obtain ⟨⟨w, left⟩, hw, heq⟩ := bind_eq_ok_iff.mp h
          cases heq
          exact hx w left hw
        have hother {w : Setting} {left : List Char} (hw : ∀ es, w ≠ .table es) (u : Setting)
            (left' : List Char)
            (heq : (pure (w, left) : Except ValueFault (Setting × List Char)) = .ok (u, left')) :
            u.Distinct := by
          cases heq
          exact .other hw
        unfold value at h
        dsimp only at h
        split at h
        · exact hskipped (hother (by exact nofun)) h
        · exact hskipped (hother (by exact nofun)) h
        · split at h
          · exact hskipped (fun _ _ => distinct_map (ihentries _)) h
          · exact hskipped (fun _ _ => distinct_map fun _ _ _ => .other (by exact nofun)) h
          · exact hskipped (fun _ _ => distinct_map fun _ _ _ => .other (by exact nofun)) h
          · split at h
            · exact hskipped (hother (by exact nofun)) h
            · cases h
          · exact hskipped (hother (plain_ne_table _)) h
      · unfold entries at h
        split at h
        · cases h
        · cases h
          exact Setting.distinct_empty
        next left heq _ =>
          obtain rfl : fuel = left := Nat.succ.inj heq
          obtain ⟨⟨k, rest⟩, -, h⟩ := bind_eq_ok_iff.mp h
          dsimp only at h
          split at h
          · obtain ⟨⟨v, rest⟩, hread, h⟩ := bind_eq_ok_iff.mp h
            have hv : v.Distinct := ihvalue _ _ _ hread
            clear hread
            dsimp only at h
            split at h
            · obtain ⟨⟨others, rest⟩, hothers, h⟩ := bind_eq_ok_iff.mp h
              cases h
              exact distinct_ite (ihentries _ _ _ hothers) hv k
            · cases h
              exact .table (by simp [Apart]) (by simpa using hv)
            · cases h
          · cases h

theorem distinct_of_setting? {text : String} {v : Setting} (h : setting? text = some v) :
    v.Distinct := by
  unfold setting? at h
  dsimp only at h
  split at h
  next hvalue =>
    cases h
    exact (distinct_value _).1 _ _ _ hvalue
  · cases h
  · cases h
    exact .other nofun

/-! ## All variables -/

theorem exists_of_mem_mapM {α β : Type} {f : α → Option β} {xs : List α} {ys : List β}
    (h : xs.mapM f = some ys) {y : β} (hy : y ∈ ys) : ∃ x ∈ xs, f x = some y := by
  induction xs generalizing ys with
  | nil =>
      cases h
      cases hy
  | cons x xs ih =>
      simp only [List.mapM_cons, bind, Option.bind_eq_some_iff] at h
      obtain ⟨z, hz, zs, hzs, h⟩ := h
      cases h
      obtain rfl | hy := List.mem_cons.mp hy
      · exact ⟨x, List.mem_cons_self, hz⟩
      · obtain ⟨x', hx', hfx⟩ := ih hzs hy
        exact ⟨x', List.mem_cons_of_mem _ hx', hfx⟩

/-- The tree of variables has no name twice. -/
theorem distinct_of_settings? {given : List (String × String)} {t : Setting}
    (h : settings? given = some t) : t.Distinct := by
  simp only [settings?, bind, Option.bind_eq_some_iff] at h
  obtain ⟨trees, htrees, h⟩ := h
  cases h
  refine Setting.distinct_layers fun tree ht => ?_
  obtain ⟨⟨path, text⟩, -, hvalue⟩ := exists_of_mem_mapM htrees ht
  obtain ⟨v, hv, rfl⟩ := Option.map_eq_some_iff.mp hvalue
  exact (distinct_of_setting? hv).nested path

/-- The variable of the log, in any case and with white space around it or none. -/
def isLog (name : String) : Bool :=
  Decimal.lower (Text.trim name.toList) == Decimal.lower (mark ++ "log".toList)

theorem path?_of_isLog {name : String} (h : isLog name = true) : path? name = none := by
  have hlower : Decimal.lower (Text.trim name.toList) = Decimal.lower (mark ++ "log".toList) :=
    beq_iff_eq.mp h
  have hrest : Decimal.lower ((Text.trim name.toList).drop mark.length) = "log".toList := by
    rw [Decimal.lower, List.map_drop, ← Decimal.lower, hlower]
    decide
  unfold path?
  dsimp only
  rw [if_pos hrest, ite_self]

/-- Whatever is said in the variable of the log, the tree is the same. -/
theorem settings?_filter (given : List (String × String)) :
    settings? (given.filter fun binding => !isLog binding.1) = settings? given := by
  have hnamed (f : String × String → Option (List String × String))
      (hf : ∀ binding, isLog binding.1 = true → f binding = none) :
      (given.filter fun binding => !isLog binding.1).filterMap f = given.filterMap f := by
    rw [List.filterMap_filter]
    refine congrArg (List.filterMap · given) (funext fun binding => ?_)
    cases hlog : isLog binding.1 with
    | true => exact (hf binding hlog).symm
    | false => rfl
  rw [settings?, hnamed]
  · rfl
  · rintro ⟨name, value⟩ hlog
    dsimp only
    rw [path?_of_isLog hlog, Option.map_none]

end Environment

/-! ## Options -/

theorem Overrides.distinct_assignment {o : Overrides} {path : List String} {v : Setting}
    (h : (path, some v) ∈ o.assignments) : v.Distinct := by
  have hmap {α : Type} {f : α → Setting} {given : Option α} (hf : ∀ a es, f a ≠ .table es)
      (hv : some v = given.map f) : v.Distinct := by
    obtain ⟨a, -, rfl⟩ := Option.map_eq_some_iff.mp hv.symm
    exact .other (hf a)
  simp only [assignments, List.mem_cons, Prod.mk.injEq, List.not_mem_nil, or_false] at h
  obtain ⟨rfl, hv⟩ | ⟨rfl, hv⟩ | ⟨rfl, hv⟩ | ⟨rfl, hv⟩ | ⟨rfl, hv⟩ | ⟨rfl, hv⟩ | ⟨rfl, hv⟩ |
    ⟨rfl, hv⟩ | ⟨rfl, hv⟩ | ⟨rfl, hv⟩ | ⟨rfl, hv⟩ := h
  all_goals
    refine hmap ?_ hv
    exact fun _ => nofun

/-- The tree of the options has no name twice. -/
theorem Overrides.distinct_settings (o : Overrides) : o.settings.Distinct := by
  refine Setting.distinct_layers fun tree ht => ?_
  obtain ⟨⟨path, v⟩, hmem, htree⟩ := List.mem_filterMap.mp ht
  obtain ⟨v, rfl, rfl⟩ := Option.map_eq_some_iff.mp htree
  exact (distinct_assignment hmem).nested path

end LinkTuner

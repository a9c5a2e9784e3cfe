import LinkTuner.Proofs.Config.Trees
import LinkTuner.Toml.Reader

/-!
# Documents define nothing twice

A setting is added only under a free name, and a table is opened only once. Main statement: in the
tree of a document no name stands twice in one table.
-/

namespace LinkTuner.Toml

open Named

/-- A part of a document in none of whose tables a name stands twice. Tables of one name make a
list, of which nothing is asked. -/
inductive Node.Distinct : Node → Prop
  | value {v : Setting} (h : v.Distinct) : Distinct (.value v)
  | table {implicit dotted : Bool} {es : Entries} (names : Apart es)
      (entries : ∀ e ∈ es, Distinct e.2) : Distinct (.table implicit dotted es)
  | rows (tables : List Entries) : Distinct (.rows tables)

/-- Entries in which no name stands twice, at any depth. -/
structure Clean (es : Entries) : Prop where
  names : Apart es
  entries : ∀ e ∈ es, e.2.Distinct

theorem clean_nil : Clean [] := ⟨List.nodup_nil, nofun⟩

section

variable {es es' : Entries} {name : String} {n : Node}

theorem Clean.setNode (h : Clean es) (hn : n.Distinct) (name : String) :
    Clean (setNode name n es) := by
  rw [setNode_eq]
  refine ⟨h.names.assign _ _, fun e he => ?_⟩
  obtain rfl | he := mem_assign he
  · exact hn
  · exact h.entries e he

theorem Clean.concat (h : Clean es) (hfree : node? name es = none) (hn : n.Distinct) :
    Clean (es ++ [(name, n)]) := by
  refine ⟨h.names.concat hfree n, fun e he => ?_⟩
  obtain he | he := List.mem_append.mp he
  · exact h.entries e he
  · rwa [List.mem_singleton.mp he]

theorem Clean.node (h : Clean es) (hn : node? name es = some n) : n.Distinct :=
  h.entries (name, n) (mem_of_value? hn)

theorem Clean.table {implicit dotted : Bool} (h : Clean es) :
    (Node.table implicit dotted es).Distinct := .table h.names h.entries

theorem clean_of_table {implicit dotted : Bool} (h : (Node.table implicit dotted es).Distinct) :
    Clean es := by
  cases h with
  | table names entries => exact ⟨names, entries⟩

/-! ## Changes -/

/-- A change at the end of a path keeps entries clean if the change itself does. -/
theorem Clean.change {dotted : Bool} {f : Bool → Entries → Option Entries}
    (hf : ∀ {here es es'}, Clean es → f here es = some es' → Clean es') {path : List String}
    {here : Bool} (hes : Clean es) (h : change dotted f path here es = some es') : Clean es' := by
  induction path generalizing here es es' with
  | nil => exact hf hes h
  | cons name path ih =>
      rw [Toml.change] at h
      split at h
      · obtain ⟨sub, hsub, rfl⟩ := Option.map_eq_some_iff.mp h
        exact hes.setNode (ih clean_nil hsub).table name
      · cases h
      · simp only [bind, Option.bind_eq_some_iff] at h
        obtain ⟨last, -, sub, -, h⟩ := h
        cases h
        exact hes.setNode (.rows _) name
      next implicit madeByPath entries hnode =>
        split_ifs at h
        obtain ⟨sub, hsub, rfl⟩ := Option.map_eq_some_iff.mp h
        exact hes.setNode (ih (clean_of_table (hes.node hnode)) hsub).table name

theorem Clean.addSetting {path : List String} {v : Setting} (hes : Clean es) (hv : v.Distinct)
    (h : addSetting path v es = some es') : Clean es' := by
  simp only [Toml.addSetting, bind, Option.bind_eq_some_iff] at h
  obtain ⟨name, -, h⟩ := h
  refine hes.change (fun hclean hadd => ?_) h
  split_ifs at hadd
  split at hadd
  · cases hadd
  next hfree =>
    cases hadd
    exact hclean.concat hfree (.value hv)

theorem Clean.openTable {path : List String} (hes : Clean es)
    (h : openTable path es = some es') : Clean es' := by
  simp only [Toml.openTable, bind, Option.bind_eq_some_iff] at h
  obtain ⟨name, -, h⟩ := h
  refine hes.change (fun hclean hopen => ?_) h
  split at hopen
  next hfree =>
    cases hopen
    exact hclean.concat hfree clean_nil.table
  next hnode =>
    cases hopen
    exact hclean.setNode (clean_of_table (hclean.node hnode)).table name
  · cases hopen

theorem Clean.openRow {path : List String} (hes : Clean es)
    (h : openRow path es = some es') : Clean es' := by
  simp only [Toml.openRow, bind, Option.bind_eq_some_iff] at h
  obtain ⟨name, -, h⟩ := h
  refine hes.change (fun hclean hopen => ?_) h
  split at hopen
  next hfree =>
    cases hopen
    exact hclean.concat hfree (.rows _)
  · cases hopen
    exact hclean.setNode (.rows _) name
  · cases hopen

theorem Clean.addUnder {header path : List String} {v : Setting} (hes : Clean es)
    (hv : v.Distinct) (h : addUnder header path v es = some es') : Clean es' :=
  hes.change (fun hclean hadd => hclean.addSetting hv hadd) h

end

/-! ## Settings of a document -/

theorem settingsOf_eq (es : Entries) : settingsOf es = es.map fun e => (e.1, e.2.setting) := by
  induction es with
  | nil => rfl
  | cons e es ih =>
      obtain ⟨name, n⟩ := e
      rw [settingsOf, ih]
      rfl

theorem Node.Distinct.setting {n : Node} (h : n.Distinct) : n.setting.Distinct := by
  induction h with
  | value h => rwa [Node.setting]
  | @table implicit dotted es names entries ih =>
      rw [Node.setting, settingsOf_eq]
      refine .table ?_ fun entry hentry => ?_
      · rw [Apart, List.map_map]
        exact names
      · obtain ⟨e, he, rfl⟩ := List.mem_map.mp hentry
        exact ih e he
  | rows tables =>
      rw [Node.setting]
      exact .other (by simp)

theorem Clean.settings {es : Entries} (h : Clean es) :
    (Setting.table (settingsOf es)).Distinct := by
  have htable : (Node.table false false es).setting.Distinct := h.table.setting
  rwa [Node.setting] at htable

/-! ## Words -/

/-- Whether what is read is no table. -/
def Simple (read : Option Setting) : Prop := ∀ v ∈ read, ∀ es, v ≠ .table es

theorem simple_none : Simple none := nofun

theorem simple_some {v : Setting} (h : ∀ es, v ≠ .table es) : Simple (some v) := by
  simpa [Simple] using h

theorem simple_bind {α : Type} {o : Option α} {f : α → Option Setting} (h : ∀ a, Simple (f a)) :
    Simple (o.bind f) := by
  cases o with
  | none => exact simple_none
  | some a => exact h a

theorem simple_orElse {o : Option Setting} {f : Unit → Option Setting} (ho : Simple o)
    (hf : Simple (f ())) : Simple (o.orElse f) := by
  cases o with
  | none => exact hf
  | some v => exact ho

theorem simple_ite {p : Prop} [Decidable p] {x y : Option Setting} (hx : Simple x)
    (hy : Simple y) : Simple (if p then x else y) := by
  split_ifs
  · exact hx
  · exact hy

theorem simple_whole? (negative : Bool) (cs : List Char) : Simple (whole? negative cs) := by
  refine simple_bind fun _ => simple_bind fun _ => ?_
  exact simple_ite (simple_ite (simple_some nofun) simple_none)
    (simple_ite (simple_some nofun) simple_none)

theorem simple_based? (base : ℕ) (cs : List Char) : Simple (based? base cs) :=
  simple_bind fun _ => simple_bind fun _ => simple_ite (simple_some nofun) simple_none

theorem simple_special? (negative : Bool) (cs : List Char) : Simple (special? negative cs) :=
  simple_ite (simple_some nofun) (simple_ite (simple_some nofun) simple_none)

theorem simple_decimal? (negative : Bool) (cs : List Char) : Simple (decimal? negative cs) := by
  have hend (exponent : Int) (parts : List Char × List Char) :
      Simple ((plainDigits? parts.1).bind fun ds =>
        let literal : Decimal.Literal := ⟨negative, ds, parts.2, exponent⟩
        if literal.bits = Decimal.infinityBits then none
        else some (.decimal (Decimal.ofBits literal.bits))) :=
    simple_bind fun _ => simple_ite simple_none (simple_some nofun)
  unfold decimal?
  dsimp only
  split <;> refine simple_bind fun exponent => ?_ <;> split
  · exact simple_ite simple_none (simple_bind (hend exponent))
  · exact simple_bind (hend exponent)
  · exact simple_ite simple_none (simple_bind (hend exponent))
  · exact simple_bind (hend exponent)

theorem simple_unsignedWord? (cs : List Char) : Simple (unsignedWord? cs) := by
  unfold unsignedWord?
  split
  · exact simple_based? 16 _
  · exact simple_based? 8 _
  · exact simple_based? 2 _
  · exact simple_orElse (simple_whole? false _) (simple_decimal? false _)

theorem distinct_moment (cs : List Char) : (moment cs).Distinct := by
  refine .table (by simp [Apart]) fun e he => ?_
  rw [List.mem_singleton.mp he]
  exact .other (by simp)

theorem distinct_word? {cs rest : List Char} {v : Setting} (h : word? cs = some (v, rest)) :
    v.Distinct := by
  have hfound {found : Option Setting} {left : List Char} (hsimple : Simple found)
      (h : (found.map fun v => (v, left)) = some (v, rest)) : v.Distinct := by
    obtain ⟨w, hw, heq⟩ := Option.map_eq_some_iff.mp h
    obtain rfl : w = v := (Prod.mk.inj heq).1
    exact .other (hsimple w hw)
  unfold word? at h
  dsimp only at h
  split at h
  · cases h
    exact .other nofun
  split at h
  · cases h
    exact .other nofun
  split at h
  · split at h
    · split_ifs at h <;> cases h <;> exact distinct_moment _
    · cases h
      exact distinct_moment _
  · split_ifs at h
    cases h
    exact distinct_moment _
  · split at h
    · cases h
      exact distinct_moment _
    · refine hfound ?_ h
      split
      · exact simple_orElse (simple_special? _ _)
          (simple_orElse (simple_whole? _ _) (simple_decimal? _ _))
      · exact simple_orElse (simple_special? _ _)
          (simple_orElse (simple_whole? _ _) (simple_decimal? _ _))
      · exact simple_orElse (simple_special? _ _) (simple_unsignedWord? _)

/-! ## Values -/

/-- A value that is read has no name twice, and neither have the settings on one line. -/
theorem distinct_value? (fuel : Nat) :
    (∀ depth cs v rest, value? fuel depth cs = some (v, rest) → v.Distinct) ∧
      ∀ depth es cs es' rest, Clean es → pairs? fuel depth es cs = some (es', rest) →
        Clean es' := by
  induction fuel with
  | zero =>
      refine ⟨fun depth cs v rest h => ?_, fun depth es cs es' rest _ h => ?_⟩
      · cases h
      · cases h
  | succ fuel ih =>
      obtain ⟨ihvalue, ihpairs⟩ := ih
      refine ⟨fun depth cs v rest h => ?_, fun depth es cs es' rest hes h => ?_⟩
      · unfold value? at h
        split at h
        · split at h
          · cases h
          · obtain ⟨found, -, heq⟩ := Option.map_eq_some_iff.mp h
            cases heq
            exact .other nofun
        · split at h
          · cases h
          · split at h
            · cases h
              exact Setting.distinct_empty
            · obtain ⟨found, hfound, heq⟩ := Option.map_eq_some_iff.mp h
              cases heq
              exact (ihpairs _ _ _ _ _ clean_nil hfound).settings
        · obtain ⟨found, -, heq⟩ := Option.map_eq_some_iff.mp h
          cases heq
          exact .other nofun
        · obtain ⟨found, -, heq⟩ := Option.map_eq_some_iff.mp h
          cases heq
          exact .other nofun
        · exact distinct_word? h
      · unfold pairs? at h
        simp only [bind, Option.bind_eq_some_iff] at h
        obtain ⟨path, -, h⟩ := h
        split at h
        · simp only [Option.bind_eq_some_iff] at h
          obtain ⟨found, hvalue, added, hadded, h⟩ := h
          have hclean := hes.addSetting (ihvalue _ _ _ _ hvalue) hadded
          split at h
          · exact ihpairs _ _ _ _ _ hclean h
          · cases h
            exact hclean
          · cases h
        · cases h

/-! ## Lines -/

theorem clean_line? {d d' : Draft} {cs rest : List Char} (hd : Clean d.entries)
    (h : line? d cs = some (d', rest)) : Clean d'.entries := by
  unfold line? at h
  split at h
  · simp only [bind, Option.bind_eq_some_iff] at h
    obtain ⟨path, -, entries, hopen, left, -, h⟩ := h
    cases h
    exact hd.openRow hopen
  · simp only [bind, Option.bind_eq_some_iff] at h
    obtain ⟨path, -, entries, hopen, left, -, h⟩ := h
    cases h
    exact hd.openTable hopen
  · split at h
    · cases h
      exact hd
    · simp only [bind, Option.bind_eq_some_iff] at h
      obtain ⟨path, -, h⟩ := h
      split at h
      · simp only [Option.bind_eq_some_iff] at h
        obtain ⟨found, hvalue, entries, hadd, left, -, h⟩ := h
        cases h
        exact hd.addUnder ((distinct_value? _).1 _ _ _ _ hvalue) hadd
      · cases h

theorem clean_lines? {fuel : Nat} {d d' : Draft} {cs : List Char} (hd : Clean d.entries)
    (h : lines? fuel d cs = some d') : Clean d'.entries := by
  induction fuel generalizing d cs with
  | zero =>
      cases cs with
      | nil =>
          cases h
          exact hd
      | cons c cs => cases h
  | succ fuel ih =>
      cases cs with
      | nil =>
          cases h
          exact hd
      | cons c cs =>
          simp only [lines?, bind, Option.bind_eq_some_iff] at h
          obtain ⟨next, hline, h⟩ := h
          exact ih (clean_line? hd hline) h

/-- The tree of a document defines nothing twice. -/
theorem distinct_of_read? {text : String} {t : Setting} (h : read? text = some t) :
    t.Distinct := by
  simp only [read?, Option.map_eq_some_iff] at h
  obtain ⟨d, hlines, rfl⟩ := h
  exact (clean_lines? clean_nil hlines).settings

end LinkTuner.Toml

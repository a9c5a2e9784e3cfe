import LinkTuner.Proofs.Config.Entries
import LinkTuner.Proofs.Toml.Distinct
import LinkTuner.Proofs.Toml.Values

/-!
# Documents that were written

A line that was written is read as what it says, and adds to the document what was not there. Main
statement: the text of entries is read as the tree of those that are not missing, where the tables
come after the others.
-/

namespace LinkTuner.Toml

open Named

/-! ## Single lines -/

/-- A name that stands without quotation marks. -/
structure Bare (name : String) : Prop where
  ne_nil : name.toList ≠ []
  all : name.toList.all Environment.isNameChar = true

instance (name : String) : Decidable (Bare name) :=
  decidable_of_iff (name.toList ≠ [] ∧ name.toList.all Environment.isNameChar = true)
    ⟨fun h => ⟨h.1, h.2⟩, fun h => ⟨h.ne_nil, h.all⟩⟩

section

variable {name : String} (hname : Bare name)

include hname

/-- A name begins with none of the characters that mean something else. -/
theorem Bare.exists_cons : ∃ c cs, name.toList = c :: cs ∧
    ∀ d, Environment.isNameChar d = false → c ≠ d := by
  obtain ⟨c, cs, htext⟩ := List.exists_cons_of_ne_nil hname.ne_nil
  refine ⟨c, cs, htext, ?_⟩
  rintro _ hd rfl
  have hc := List.all_eq_true.mp hname.all c (htext ▸ List.mem_cons_self)
  rw [hd] at hc
  cases hc

theorem Bare.skipBlank (rest : List Char) :
    skipBlank (name.toList ++ rest) = name.toList ++ rest := by
  obtain ⟨c, cs, htext, hother⟩ := hname.exists_cons
  rw [htext, List.cons_append, Toml.skipBlank]
  exact List.dropWhile_cons_of_neg (by simp [isBlank, hother ' ' rfl, hother '\t' rfl])

theorem part?_bare {rest : List Char} (hrest : ∀ c ∈ rest.head?, Environment.isNameChar c = false) :
    part? (name.toList ++ rest) = some (name, rest) := by
  have htake : (name.toList ++ rest).takeWhile Environment.isNameChar = name.toList := by
    rw [List.takeWhile_append_of_pos (List.all_eq_true.mp hname.all)]
    cases rest with
    | nil => simp
    | cons c rest => simp [hrest c rfl]
  obtain ⟨c, cs, htext, hother⟩ := hname.exists_cons
  rw [part?, htake]
  · rw [htext]
    simp only
    rw [← htext, List.drop_left, String.ofList_toList]
  · intro _ heq
    rw [htext] at heq
    exact hother '"' rfl (List.cons.inj heq).1
  · intro _ heq
    rw [htext] at heq
    exact hother '\'' rfl (List.cons.inj heq).1

/-- A name is read up to what follows it and the blanks in front of that. -/
theorem name?_bare {rest : List Char} (hrest : ∀ c ∈ rest.head?, Environment.isNameChar c = false)
    (hpoint : (skipBlank rest).head? ≠ some '.') :
    name? (name.toList ++ rest) = some ([name], skipBlank rest) := by
  have hparts : parts? (78 + 1) (name.toList ++ rest) = some ([name], skipBlank rest) := by
    rw [parts?, hname.skipBlank, part?_bare hname hrest]
    simp only [bind, Option.bind_some]
    split
    next heq => exact absurd (by rw [heq, List.head?_cons]) hpoint
    next => rfl
  exact hparts

end

/-- A line that begins with a name is not empty. -/
theorem Bare.finishLine? {name : String} (hname : Bare name) (rest : List Char) :
    finishLine? (name.toList ++ rest) = none := by
  have hblank := hname.skipBlank rest
  obtain ⟨c, cs, htext, hother⟩ := hname.exists_cons
  rw [htext, List.cons_append] at hblank ⊢
  have hcomment : skipComment (c :: (cs ++ rest)) = c :: (cs ++ rest) := by
    rw [skipComment]
    exact fun _ heq => hother '#' rfl (List.cons.inj heq).1
  rw [Toml.finishLine?, hblank, hcomment]
  exact lineEnd?_of_ne (hother '\n' rfl) (hother '\r' rfl) _

theorem Written.skipBlank {text : List Char} {v : Setting} (h : Written text v) (rest : List Char) :
    skipBlank (' ' :: (text ++ rest)) = text ++ rest := by
  obtain ⟨c, cs, rfl, hc⟩ := h.head
  rw [Toml.skipBlank, List.dropWhile_cons_of_pos rfl, List.cons_append]
  exact List.dropWhile_cons_of_neg (by simp [hc])

theorem finishLine?_end (rest : List Char) : finishLine? ('\n' :: rest) = some rest := rfl

section

variable {d : Draft} {name : String} {es : Entries} (hname : Bare name)

include hname

/-- A setting is added under the header that was read last. -/
theorem line?_setting {text rest : List Char} {v : Setting} (h : Written text v)
    (hadd : addUnder d.header [name] v d.entries = some es) :
    line? d (name.toList ++ " = ".toList ++ text ++ '\n' :: rest) =
      some (⟨es, d.header⟩, rest) := by
  have htext : name.toList ++ " = ".toList ++ text ++ '\n' :: rest =
      name.toList ++ ' ' :: '=' :: ' ' :: (text ++ '\n' :: rest) := by simp
  have hread : name? (name.toList ++ ' ' :: '=' :: ' ' :: (text ++ '\n' :: rest)) =
      some ([name], '=' :: ' ' :: (text ++ '\n' :: rest)) :=
    name?_bare hname (by simp [Environment.isNameChar]) (by simp [Toml.skipBlank, isBlank])
  have hvalue : value? (2 * (' ' :: (text ++ '\n' :: rest)).length + 2) maxDepth
      (text ++ '\n' :: rest) = some (v, '\n' :: rest) := by
    refine h.value (closes_cons (by simp) rest) ?_ 78
    simp only [List.length_cons, List.length_append]
    omega
  have hfinish := hname.finishLine? (' ' :: '=' :: ' ' :: (text ++ '\n' :: rest))
  rw [htext]
  unfold line?
  rw [hname.skipBlank]
  obtain ⟨c, cs, hcs, hother⟩ := hname.exists_cons
  rw [hcs, List.cons_append] at hfinish hread ⊢
  split
  next heq => exact absurd (List.cons.inj heq).1 (hother '[' rfl)
  next heq => exact absurd (List.cons.inj heq).1 (hother '[' rfl)
  next =>
    rw [hfinish]
    simp only [hread, bind, Option.bind_some, h.skipBlank, hvalue, hadd, finishLine?_end]
    rfl

/-- A header opens a table. -/
theorem line?_header {rest : List Char} (hopen : openTable [name] d.entries = some es) :
    line? d ('[' :: (name.toList ++ "]\n".toList ++ rest)) = some (⟨es, [name]⟩, rest) := by
  have htext : '[' :: (name.toList ++ "]\n".toList ++ rest) =
      '[' :: (name.toList ++ ']' :: '\n' :: rest) := by simp
  have hread : header? [']'] (name.toList ++ ']' :: '\n' :: rest) =
      some ([name], '\n' :: rest) := by
    rw [header?, name?_bare hname (by simp [Environment.isNameChar])
      (by simp [Toml.skipBlank, isBlank])]
    rfl
  have hblank (cs : List Char) : skipBlank ('[' :: cs) = '[' :: cs := rfl
  obtain ⟨c, cs, hcs, hother⟩ := hname.exists_cons
  rw [htext]
  unfold line?
  rw [hblank]
  rw [hcs, List.cons_append] at hread ⊢
  split
  next heq => exact absurd (List.cons.inj (List.cons.inj heq).2).1 (hother '[' rfl)
  next heq =>
    obtain rfl := (List.cons.inj heq).2
    simp only [hread, bind, Option.bind_some, hopen, finishLine?_end]
    rfl
  next hnot => exact absurd rfl (hnot _)

end

theorem line?_empty (d : Draft) (rest : List Char) : line? d ('\n' :: rest) = some (d, rest) := rfl

/-! ## Many lines -/

/-- Reading from a draft and a text comes to another draft and what is left of the text. -/
def Leads (d : Draft) (cs : List Char) (d' : Draft) (rest : List Char) : Prop :=
  ∀ fuel, cs.length < fuel → ∃ fuel', rest.length < fuel' ∧ lines? fuel d cs = lines? fuel' d' rest

theorem Leads.refl (d : Draft) (cs : List Char) : Leads d cs d cs := fun fuel hfuel =>
  ⟨fuel, hfuel, rfl⟩

theorem Leads.trans {d d' d'' : Draft} {cs cs' rest : List Char} (h : Leads d cs d' cs')
    (h' : Leads d' cs' d'' rest) : Leads d cs d'' rest := by
  intro fuel hfuel
  obtain ⟨fuel', hfuel', heq⟩ := h fuel hfuel
  obtain ⟨fuel'', hfuel'', heq'⟩ := h' fuel' hfuel'
  exact ⟨fuel'', hfuel'', heq.trans heq'⟩

theorem leads_of_line? {d d' : Draft} {cs rest : List Char} (h : line? d cs = some (d', rest))
    (hless : rest.length < cs.length) : Leads d cs d' rest := by
  intro fuel hfuel
  obtain ⟨fuel, rfl⟩ : ∃ n, fuel = n + 1 := ⟨fuel - 1, by omega⟩
  refine ⟨fuel, by omega, ?_⟩
  cases cs with
  | nil => cases hless
  | cons c cs =>
      rw [lines?, h]
      · rfl
      · exact List.cons_ne_nil c cs

theorem Leads.read? {d : Draft} {cs : List Char} (h : Leads ⟨[], []⟩ cs d []) :
    read? (String.ofList cs) = some (.table (settingsOf d.entries)) := by
  obtain ⟨fuel, -, heq⟩ := h (cs.length + 1) (Nat.lt_succ_self _)
  have hlines : lines? fuel d [] = some d := by
    cases fuel <;> rfl
  rw [hlines] at heq
  rw [Toml.read?, String.toList_ofList]
  split
  · -- No line begins with a byte order mark.
    cases heq
  · rw [heq, Option.map_some]

/-! ## Entries -/

/-- What is read of an entry that is no table, if anything is written of it. -/
def rowOf? : String × Setting → Option (String × Setting)
  | (_, .nothing) | (_, .table _) => none
  | (name, v) => some (name, normal v)

/-- What is read of a table. -/
def tableOf? : String × Setting → Option (String × Setting)
  | (name, .table es) => some (name, .table (es.filterMap rowOf?))
  | _ => none

/-- Whether eight bytes with a sign hold all whole numbers of a setting that is no table. -/
def Storable : Setting → Prop
  | .list vs => ∀ v ∈ vs, Held v
  | v => Held v

/-- Entries that can be read back. -/
structure Orderly (es : List (String × Setting)) : Prop where
  apart : Apart es
  bare : ∀ e ∈ es, Bare e.1
  storable : ∀ e ∈ es, Storable e.2

/-- An entry is not written at all, or on a line of its own. -/
theorem rowOf?_cases {e : String × Setting} {line : List Char} (h : lineOf? e = some line)
    (he : Storable e.2) :
    (rowOf? e = none ∧ line = []) ∨
      ∃ text v, rowOf? e = some (e.1, v) ∧ Written text v ∧
        line = e.1.toList ++ " = ".toList ++ text ++ ['\n'] := by
  obtain ⟨name, v⟩ := e
  have hscalar {v : Setting} (hv : Held v) (hnormal : normal v = plain v)
      (hrow : rowOf? (name, v) = some (name, normal v))
      (h : (do return name.toList ++ " = ".toList ++ (← scalar? v) ++ ['\n']) = some line) :
      (rowOf? (name, v) = none ∧ line = []) ∨
        ∃ text w, rowOf? (name, v) = some (name, w) ∧ Written text w ∧
          line = name.toList ++ " = ".toList ++ text ++ ['\n'] := by
    simp only [bind, Option.bind_eq_some_iff] at h
    obtain ⟨text, htext, h⟩ := h
    cases h
    exact .inr ⟨text, plain v, hnormal ▸ hrow, (scalar_of_scalar? htext hv).written, rfl⟩
  cases v with
  | nothing =>
      cases h
      exact .inl ⟨rfl, rfl⟩
  | table es =>
      cases h
      exact .inl ⟨rfl, rfl⟩
  | list vs =>
      simp only [lineOf?, bind, Option.bind_eq_some_iff] at h
      obtain ⟨text, htext, h⟩ := h
      cases h
      exact .inr ⟨text, _, rfl, written_of_list? htext he, rfl⟩
  | bool b => exact hscalar he rfl rfl h
  | text s => exact hscalar he rfl rfl h
  | natural n => exact hscalar he rfl rfl h
  | whole n => exact hscalar he rfl rfl h
  | decimal x => exact hscalar he rfl rfl h

/-- How entries stand in a document under a header. -/
structure Place (header : List String) (put : Entries → Entries) : Prop where
  add {sub : Entries} {name : String} (hfree : node? name sub = none) (v : Setting) :
    addUnder header [name] v (put sub) = some (put (sub ++ [(name, .value v)]))

theorem addSetting_of_free {sub : Entries} {name : String} (hfree : node? name sub = none)
    (v : Setting) : addSetting [name] v sub = some (sub ++ [(name, .value v)]) := by
  simp [addSetting, change, hfree]

theorem place_top : Place [] id where
  add hfree v := by
    rw [addUnder, change]
    exact addSetting_of_free hfree v

/-- In a table that was opened last. -/
theorem place_table {es : Entries} {group : String} (hgroup : node? group es = none) :
    Place [group] fun sub => es ++ [(group, .table false false sub)] where
  add {sub name} hfree v := by
    have hfound : node? group (es ++ [(group, .table false false sub)]) =
        some (.table false false sub) := by
      rw [node?_eq] at hgroup ⊢
      rw [value?_append, hgroup, Option.none_or, value?_cons, if_pos rfl]
    have hset (n : Node) : setNode group n (es ++ [(group, .table false false sub)]) =
        es ++ [(group, n)] := by
      rw [setNode_eq, assign_append hgroup, assign, if_pos rfl]
    rw [addUnder, change, hfound]
    simp only [Bool.not_false, Bool.and_true, Bool.false_eq_true, if_false, change,
      addSetting_of_free hfree, Option.map_some, hset]

/-- Names stay free when another one is taken. -/
theorem free_concat {name k : String} {n : Node} {nodes : Entries} (hfree : node? name nodes = none)
    (hne : k ≠ name) : node? name (nodes ++ [(k, n)]) = none := by
  rw [node?_eq] at hfree ⊢
  rw [value?_append, hfree, Option.none_or, value?_cons, if_neg hne]
  rfl

/-- The nodes of settings that are complete. -/
def nodesOf (es : List (String × Setting)) : Entries := es.map fun e => (e.1, .value e.2)

theorem nodesOf_cons (e : String × Setting) (es : List (String × Setting)) :
    nodesOf (e :: es) = (e.1, .value e.2) :: nodesOf es := rfl

/-- The text of many entries begins with that of the first one. -/
theorem flatten_mapM_cons {α : Type} {f : α → Option (List Char)} {x : α} {xs : List α}
    {text : List Char} :
    ((x :: xs).mapM f).map List.flatten = some text ↔
      ∃ line others, f x = some line ∧ (xs.mapM f).map List.flatten = some others ∧
        text = line ++ others := by
  rw [List.mapM_cons]
  cases f x with
  | none => simp
  | some line =>
      cases xs.mapM f with
      | none => simp
      | some lines => simp [eq_comm]

theorem Orderly.of_cons {e : String × Setting} {es : List (String × Setting)}
    (h : Orderly (e :: es)) : Orderly es where
  apart := (apart_cons.mp h.apart).2
  bare e' he' := h.bare e' (List.mem_cons_of_mem e he')
  storable e' he' := h.storable e' (List.mem_cons_of_mem e he')

/-- The lines of entries add the entries that are no tables. -/
theorem leads_linesOf? {header : List String} {put : Entries → Entries} (hplace : Place header put)
    {es : List (String × Setting)} {text : List Char} (h : linesOf? es = some text)
    (hes : Orderly es) (sub : Entries) (hfree : ∀ e ∈ es, node? e.1 sub = none) (rest : List Char) :
    Leads ⟨put sub, header⟩ (text ++ rest) ⟨put (sub ++ nodesOf (es.filterMap rowOf?)), header⟩
      rest := by
  induction es generalizing text sub with
  | nil =>
      cases h
      rw [List.filterMap_nil, nodesOf, List.map_nil, List.append_nil]
      exact .refl _ _
  | cons e es ih =>
      obtain ⟨line, others, hline, hothers, rfl⟩ := flatten_mapM_cons.mp h
      obtain ⟨hname, hapart⟩ := apart_cons.mp hes.apart
      obtain ⟨hfirst, hfree⟩ := List.forall_mem_cons.mp hfree
      obtain ⟨hrow, rfl⟩ | ⟨text, v, hrow, hwritten, rfl⟩ :=
        rowOf?_cases hline (hes.storable e List.mem_cons_self)
      · rw [List.filterMap_cons_none hrow]
        exact ih hothers hes.of_cons sub hfree
      · have hadded : ∀ e' ∈ es, node? e'.1 (sub ++ [(e.1, .value v)]) = none := by
          intro e' he'
          have hne : e.1 ≠ e'.1 := fun heq => hname (heq ▸ List.mem_map_of_mem he')
          have hold := hfree e' he'
          rw [node?_eq] at hold ⊢
          rw [value?_append, hold, Option.none_or, value?_cons, if_neg hne]
          rfl
        have hline : Leads ⟨put sub, header⟩
            (e.1.toList ++ " = ".toList ++ text ++ '\n' :: (others ++ rest))
            ⟨put (sub ++ [(e.1, .value v)]), header⟩ (others ++ rest) := by
          refine leads_of_line? (line?_setting (hes.bare e List.mem_cons_self) hwritten
            (hplace.add hfirst v)) ?_
          simp only [List.length_append, List.length_cons]
          omega
        have hrest := ih hothers hes.of_cons _ hadded
        rw [List.append_assoc] at hrest
        rw [List.filterMap_cons_some hrow]
        simpa [nodesOf_cons] using hline.trans hrest

/-- The node of a table with a header. -/
def tableNode? : String × Setting → Option (String × Node)
  | (name, .table sub) => some (name, .table false false (nodesOf (sub.filterMap rowOf?)))
  | _ => none

theorem section?_of_other {e : String × Setting} (h : ∀ sub, e.2 ≠ .table sub) :
    (section? e = some []) ∧ tableNode? e = none := by
  obtain ⟨name, v⟩ := e
  cases v with
  | table sub => exact absurd rfl (h sub)
  | _ => exact ⟨rfl, rfl⟩

theorem settingsOf_nodesOf (es : List (String × Setting)) : settingsOf (nodesOf es) = es := by
  rw [settingsOf_eq, nodesOf, List.map_map]
  exact List.map_id es

theorem settingsOf_append (es es' : Entries) :
    settingsOf (es ++ es') = settingsOf es ++ settingsOf es' := by
  rw [settingsOf_eq, settingsOf_eq, settingsOf_eq, List.map_append]

theorem settingsOf_tableNode? (es : List (String × Setting)) :
    settingsOf (es.filterMap tableNode?) = es.filterMap tableOf? := by
  rw [settingsOf_eq, List.map_filterMap]
  refine congrArg (List.filterMap · es) (funext fun e => ?_)
  obtain ⟨name, v⟩ := e
  cases v with
  | table sub =>
      rw [tableNode?, tableOf?, Option.map_some, Node.setting, settingsOf_nodesOf]
  | _ => rfl

theorem openTable_of_free {es : Entries} {name : String} (hfree : node? name es = none) :
    openTable [name] es = some (es ++ [(name, .table false false [])]) := by
  simp [openTable, change, hfree]

/-- A section opens its table and adds the entries that are no tables to it. -/
theorem leads_section? {name : String} {sub : List (String × Setting)} {lines : List Char}
    (h : linesOf? sub = some lines) (hname : Bare name) (hsub : Orderly sub) {nodes : Entries}
    (hfree : node? name nodes = none) (header : List String) (rest : List Char) :
    Leads ⟨nodes, header⟩ ("\n[".toList ++ name.toList ++ "]\n".toList ++ lines ++ rest)
      ⟨nodes ++ [(name, .table false false (nodesOf (sub.filterMap rowOf?)))], [name]⟩ rest := by
  have htext : "\n[".toList ++ name.toList ++ "]\n".toList ++ lines ++ rest =
      '\n' :: '[' :: (name.toList ++ "]\n".toList ++ (lines ++ rest)) := by simp
  have hempty := leads_of_line? (line?_empty ⟨nodes, header⟩
    ('[' :: (name.toList ++ "]\n".toList ++ (lines ++ rest)))) (by simp)
  have hheader : Leads ⟨nodes, header⟩ ('[' :: (name.toList ++ "]\n".toList ++ (lines ++ rest)))
      ⟨nodes ++ [(name, .table false false [])], [name]⟩ (lines ++ rest) := by
    refine leads_of_line? (line?_header hname (openTable_of_free hfree)) ?_
    simp only [List.length_cons, List.length_append]
    omega
  have hlines := leads_linesOf? (place_table hfree) h hsub [] (fun _ _ => rfl) rest
  rw [htext]
  exact hempty.trans (hheader.trans hlines)

/-- The sections of entries add the tables among them. -/
theorem leads_sections {es : List (String × Setting)} {text : List Char}
    (h : (es.mapM section?).map List.flatten = some text) (hes : Orderly es)
    (htables : ∀ name sub, (name, .table sub) ∈ es → Orderly sub) {nodes : Entries}
    (hfree : ∀ name sub, (name, .table sub) ∈ es → node? name nodes = none) (header : List String) :
    ∃ header', Leads ⟨nodes, header⟩ text ⟨nodes ++ es.filterMap tableNode?, header'⟩ [] := by
  induction es generalizing text nodes header with
  | nil =>
      cases h
      rw [List.filterMap_nil, List.append_nil]
      exact ⟨header, .refl _ _⟩
  | cons e es ih =>
      obtain ⟨line, others, hline, hothers, rfl⟩ := flatten_mapM_cons.mp h
      obtain ⟨hapart, -⟩ := apart_cons.mp hes.apart
      have hrest : ∀ name sub, (name, .table sub) ∈ es → Orderly sub := fun name sub hmem =>
        htables name sub (List.mem_cons_of_mem e hmem)
      by_cases htable : ∃ sub, e.2 = .table sub
      · obtain ⟨name, v⟩ := e
        obtain ⟨sub, rfl⟩ := htable
        simp only [section?, bind, Option.bind_eq_some_iff] at hline
        obtain ⟨lines, hlines, hline⟩ := hline
        cases hline
        have hsection := leads_section? hlines (hes.bare _ List.mem_cons_self)
          (htables name sub List.mem_cons_self) (hfree name sub List.mem_cons_self) header others
        have hadded (n : Node) (name' : String) (sub' : List (String × Setting))
            (hmem : (name', .table sub') ∈ es) : node? name' (nodes ++ [(name, n)]) = none := by
          refine free_concat (hfree name' sub' (List.mem_cons_of_mem _ hmem)) ?_
          rintro rfl
          exact hapart (List.mem_map.mpr ⟨_, hmem, rfl⟩)
        obtain ⟨header', hleads⟩ := ih hothers hes.of_cons hrest (hadded _) [name]
        refine ⟨header', ?_⟩
        simpa [tableNode?] using hsection.trans hleads
      · obtain ⟨hnone, hnode⟩ := section?_of_other fun sub heq => htable ⟨sub, heq⟩
        cases hnone.symm.trans hline
        rw [List.filterMap_cons_none hnode]
        exact ih hothers hes.of_cons hrest
          (fun name sub hmem => hfree name sub (List.mem_cons_of_mem e hmem)) header

theorem rowOf?_eq_some {e row : String × Setting} (h : rowOf? e = some row) :
    row.1 = e.1 ∧ ∀ sub, e.2 ≠ .table sub := by
  obtain ⟨name, v⟩ := e
  cases v with
  | nothing => cases h
  | table sub => cases h
  | _ =>
      cases h
      exact ⟨rfl, by simp⟩

/-- The name of a table is not that of another entry. -/
theorem free_of_table {es : List (String × Setting)} (h : Apart es) {name : String}
    {sub : List (String × Setting)} (hmem : (name, .table sub) ∈ es) :
    node? name (nodesOf (es.filterMap rowOf?)) = none := by
  rw [node?_eq, value?_eq_none_iff, nodesOf, List.map_map]
  rintro hname
  obtain ⟨row, hrow, rfl⟩ := List.mem_map.mp hname
  obtain ⟨e, he, hrow⟩ := List.mem_filterMap.mp hrow
  obtain ⟨hsame, hother⟩ := rowOf?_eq_some hrow
  obtain rfl := List.inj_on_of_nodup_map h he hmem hsame.symm
  exact hother sub rfl

/-- The text of entries is read as the tree of what is not missing, the tables last. -/
theorem read?_of_write? {es : List (String × Setting)} {text : String} (h : write? es = some text)
    (hes : Orderly es) (htables : ∀ name sub, (name, .table sub) ∈ es → Orderly sub) :
    read? text = some (.table (es.filterMap rowOf? ++ es.filterMap tableOf?)) := by
  simp only [write?, bind, Option.bind_eq_some_iff] at h
  obtain ⟨top, htop, sections, hsections, h⟩ := h
  cases h
  have hrows := leads_linesOf? place_top htop hes [] (fun _ _ => rfl) sections.flatten
  obtain ⟨header, htablesRead⟩ := leads_sections (by rw [hsections, Option.map_some]) hes htables
    (fun _ _ => free_of_table hes.apart) []
  have hread := (hrows.trans htablesRead).read?
  rw [settingsOf_append, settingsOf_tableNode?] at hread
  exact hread.trans (by rw [settingsOf_nodesOf])

end LinkTuner.Toml

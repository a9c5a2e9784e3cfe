import LinkTuner.Proofs.Config.Layering
import LinkTuner.Proofs.Config.Startable
import LinkTuner.Proofs.Toml.Lines

/-!
# Configurations that are printed and loaded again

What a configuration leaves out is not printed, and the standard values stand for it when the text
is loaded. Main statement: a configuration that was loaded is printed and loaded back from the text
as it was if and only if eight bytes with a sign hold all its numbers of eight bytes; otherwise it
is not printed at all.
-/

namespace LinkTuner

open Named Setting
open Toml (lineOf? linesOf? section? scalar? rowOf? tableOf? Orderly Bare Storable)

/-! ## What is printed -/

/-- The numbers of eight bytes in a configuration. -/
def Config.words (c : Config) : List UInt64 :=
  c.arms.toList ++ [c.timeout, c.maxDevices, c.historyLength, c.statusInterval] ++ c.seed.toList

theorem isSome_mapM_iff {α β : Type} {f : α → Option β} {xs : List α} :
    (xs.mapM f).isSome ↔ ∀ x ∈ xs, (f x).isSome := by
  induction xs with
  | nil => simp
  | cons x xs ih =>
      rw [List.forall_mem_cons, ← ih, List.mapM_cons]
      cases f x with
      | none => simp
      | some y => cases xs.mapM f <;> simp

namespace Toml

/-- A list whose items can be written can be written. -/
theorem isSome_list?_iff {items : List Setting} :
    (list? items).isSome ↔ ∀ v ∈ items, (scalar? v).isSome := by
  rw [← isSome_mapM_iff, list?]
  cases items.mapM scalar? with
  | none => rfl
  | some texts =>
      simp only [bind, Option.bind_some, Option.isSome_some, iff_true]
      split <;> rfl

theorem isSome_linesOf?_iff {es : List (String × Setting)} :
    (linesOf? es).isSome ↔ ∀ e ∈ es, (lineOf? e).isSome := by
  rw [linesOf?, Option.isSome_map, isSome_mapM_iff]

theorem isSome_section?_iff {e : String × Setting} :
    (section? e).isSome ↔ ∀ sub, e.2 = .table sub → ∀ e' ∈ sub, (lineOf? e').isSome := by
  obtain ⟨name, v⟩ := e
  cases v with
  | table sub =>
      simp only [Setting.table.injEq, forall_eq']
      rw [← isSome_linesOf?_iff, section?]
      cases linesOf? sub <;> simp
  | _ => simp [section?]

/-- Entries can be written if those that are no tables and those in the tables can be. -/
theorem isSome_write?_iff {es : List (String × Setting)} :
    (write? es).isSome ↔ (∀ e ∈ es, (lineOf? e).isSome) ∧
      ∀ name sub, (name, .table sub) ∈ es → ∀ e ∈ sub, (lineOf? e).isSome := by
  have hsections : (es.mapM section?).isSome ↔
      ∀ name sub, (name, .table sub) ∈ es → ∀ e ∈ sub, (lineOf? e).isSome := by
    simp only [isSome_mapM_iff, isSome_section?_iff]
    constructor
    · exact fun h name sub hmem => h (name, .table sub) hmem sub rfl
    · rintro h ⟨name, _⟩ hmem sub rfl
      exact h name sub hmem
  rw [← isSome_linesOf?_iff, ← hsections, write?]
  cases linesOf? es with
  | none => simp
  | some top => cases es.mapM section? <;> simp

section

variable {name : String}

theorem isSome_lineOf?_word {n : UInt64} :
    (lineOf? (name, .ofWord n)).isSome ↔ n.toNat < Decimal.signedLimit := by
  simp only [ofWord, lineOf?, scalar?]
  split_ifs with h <;> simp [h]

theorem isSome_lineOf?_optionalWord {o : Option UInt64} :
    (lineOf? (name, .ofOptional .ofWord o)).isSome ↔ ∀ n ∈ o, n.toNat < Decimal.signedLimit := by
  cases o with
  | none => exact ⟨fun _ => nofun, fun _ => rfl⟩
  | some n =>
      rw [ofOptional, isSome_lineOf?_word]
      simp

theorem isSome_lineOf?_optionalDecimal (o : Option Float) :
    (lineOf? (name, .ofOptional .decimal o)).isSome = true := by
  cases o <;> rfl

theorem isSome_lineOf?_list {α : Type} {write : α → Setting} (h : ∀ a, (scalar? (write a)).isSome)
    (xs : List α) : (lineOf? (name, .list (xs.map write))).isSome = true := by
  have hlist : (list? (xs.map write)).isSome := by
    rw [isSome_list?_iff, List.forall_mem_map]
    exact fun a _ => h a
  obtain ⟨text, htext⟩ := Option.isSome_iff_exists.mp hlist
  simp [lineOf?, htext]

end

end Toml

namespace Config

variable {c : Config}

theorem isSome_byte (n : UInt8) : (scalar? (.natural n.toNat)).isSome = true := by
  have hn := n.toNat_lt
  rw [scalar?, if_pos (by simp only [Decimal.signedLimit]; omega)]
  rfl

theorem ofOptional_ne_table {α : Type} {write : α → Setting} (h : ∀ a es, write a ≠ .table es)
    (o : Option α) (es : List (String × Setting)) : ofOptional write o ≠ .table es := by
  cases o with
  | none => simp [ofOptional]
  | some a => exact h a es

/-- The tables in a configuration are those of the weights and of the strategy. -/
theorem tables (c : Config) {name : String} {es : List (String × Setting)}
    (h : (name, .table es) ∈ c.settings.entries) :
    es = c.weights.settings.entries ∨ es = c.strategy.settings.entries := by
  have hoptional (o : Option UInt64) : (Setting.table es = ofOptional ofWord o) = False :=
    eq_false fun heq => ofOptional_ne_table (by simp [ofWord]) o es heq.symm
  simp only [settings, entries, List.mem_cons, Prod.mk.injEq, hoptional, ofWord, reduceCtorEq,
    and_false, false_or, List.not_mem_nil, or_false] at h
  obtain ⟨-, heq⟩ | ⟨-, heq⟩ := h
  · exact .inl (congrArg entries heq)
  · exact .inr (congrArg entries heq)

theorem isSome_weights (w : Weights Float) : ∀ e ∈ w.settings.entries, (lineOf? e).isSome := by
  simp only [Weights.settings, entries, List.forall_mem_cons, List.not_mem_nil, false_implies,
    implies_true, and_true]
  exact ⟨rfl, rfl, rfl⟩

theorem isSome_strategy (s : Strategy Float) : ∀ e ∈ s.settings.entries, (lineOf? e).isSome := by
  cases s with
  | exponential gamma low high =>
      simp only [Strategy.settings, entries, List.forall_mem_cons, List.not_mem_nil, false_implies,
        implies_true, and_true, Toml.isSome_lineOf?_optionalDecimal]
      exact ⟨rfl, rfl⟩
  | greedy epsilon step =>
      simp only [Strategy.settings, entries, List.forall_mem_cons, List.not_mem_nil, false_implies,
        implies_true, and_true, Toml.isSome_lineOf?_optionalDecimal]
      exact ⟨rfl, rfl⟩

/-- A configuration is printed if its numbers of eight bytes are small enough. -/
theorem isSome_toToml?_iff :
    c.toToml?.isSome ↔ ∀ n ∈ c.words, n.toNat < Decimal.signedLimit := by
  have htables (name : String) (es : List (String × Setting))
      (hmem : (name, .table es) ∈ c.settings.entries) : ∀ e ∈ es, (lineOf? e).isSome := by
    obtain rfl | rfl := c.tables hmem
    · exact isSome_weights c.weights
    · exact isSome_strategy c.strategy
  have htext (name s : String) : (lineOf? (name, .text s)).isSome = true := rfl
  have hfactors : (lineOf? ("spreading_factors", .list (c.factors.map fun n =>
      .natural n.toNat))).isSome = true := Toml.isSome_lineOf?_list isSome_byte c.factors
  have hpowers : (lineOf? ("tx_powers_dbm", .list (c.powers.map fun n =>
      .whole n.toInt))).isSome = true := Toml.isSome_lineOf?_list (fun _ => rfl) c.powers
  have hweights : (lineOf? ("reward", c.weights.settings)).isSome = true := rfl
  have hstrategy : (lineOf? ("strategy", c.strategy.settings)).isSome = true := by
    cases c.strategy <;> rfl
  change (Toml.write? c.settings.entries).isSome ↔ _
  rw [Toml.isSome_write?_iff, and_iff_left htables, words]
  simp only [settings, entries, List.forall_mem_cons, List.forall_mem_append, htext, hfactors,
    hpowers, hweights, hstrategy, Toml.isSome_lineOf?_word, Toml.isSome_lineOf?_optionalWord,
    Option.mem_toList, List.not_mem_nil, false_implies, implies_true, true_and, and_true]
  tauto

/-! ## What is read back -/

theorem orderly_of_names {t : Setting} (h : t.Distinct) (names : List String)
    (hnames : t.entries.map Prod.fst = names) (hbare : ∀ name ∈ names, Bare name)
    (hstorable : ∀ e ∈ t.entries, Storable e.2) : Orderly t.entries where
  apart := h.apart_entries
  bare e he := hbare e.1 (hnames ▸ List.mem_map_of_mem he)
  storable := hstorable

theorem storable_optionalWord (o : Option UInt64) : Storable (ofOptional ofWord o) := by
  cases o <;> trivial

theorem storable_optionalDecimal (o : Option Float) : Storable (ofOptional decimal o) := by
  cases o <;> trivial

theorem orderly_weights (w : Weights Float) : Orderly w.settings.entries := by
  refine orderly_of_names w.distinct_settings ["alpha", "beta", "energy_reference_j"] rfl
    (by decide) ?_
  simp [Weights.settings, entries, Storable, Toml.Held]

theorem orderly_strategy (s : Strategy Float) : Orderly s.settings.entries := by
  cases s with
  | exponential gamma low high =>
      refine orderly_of_names (Strategy.distinct_settings _)
        ["kind", "gamma", "reward_min", "reward_max"] rfl (by decide) ?_
      simp only [Strategy.settings, entries, List.forall_mem_cons, storable_optionalDecimal,
        List.not_mem_nil, false_implies, implies_true, and_true]
      exact ⟨trivial, trivial⟩
  | greedy epsilon step =>
      refine orderly_of_names (Strategy.distinct_settings _) ["kind", "epsilon", "step_size"] rfl
        (by decide) ?_
      simp only [Strategy.settings, entries, List.forall_mem_cons, storable_optionalDecimal,
        List.not_mem_nil, false_implies, implies_true, and_true]
      exact ⟨trivial, trivial⟩

/-- A configuration has no greater numbers than can be read where it is printed. -/
theorem orderly_settings (c : Config) : Orderly c.settings.entries := by
  have hfactors : Storable (.list (c.factors.map fun n => .natural n.toNat)) := by
    simp [Storable, Toml.Held]
  have hpowers : Storable (.list (c.powers.map fun n => .whole n.toInt)) := by
    simp only [Storable, List.forall_mem_map, Toml.Held, Decimal.signedLimit]
    intro n _
    have hlow := n.le_toInt
    have hhigh := n.toInt_lt
    omega
  have hstrategy : Storable c.strategy.settings := by
    cases c.strategy <;> trivial
  refine orderly_of_names c.distinct_settings ["listen_addr", "spreading_factors", "tx_powers_dbm",
    "arms", "timeout_ms", "max_devices", "history_len", "status_interval_secs", "seed", "log_level",
    "reward", "strategy"] rfl (by decide) ?_
  simp only [settings, entries, List.forall_mem_cons, storable_optionalWord, hfactors, hpowers,
    hstrategy, List.not_mem_nil, false_implies, implies_true, true_and, and_true]
  exact ⟨trivial, trivial, trivial, trivial, trivial, trivial, trivial⟩

theorem orderly_tables (c : Config) {name : String} {es : List (String × Setting)}
    (h : (name, .table es) ∈ c.settings.entries) : Orderly es := by
  obtain rfl | rfl := c.tables h
  · exact orderly_weights c.weights
  · exact orderly_strategy c.strategy

end Config

theorem tableOf?_eq_some {e table : String × Setting} (h : tableOf? e = some table) :
    table.1 = e.1 := by
  obtain ⟨name, v⟩ := e
  cases v with
  | table sub =>
      cases h
      rfl
  | _ => cases h

theorem rowOf?_ne_table {name k : String} {v w : Setting} (h : rowOf? (name, v) = some (k, w))
    (sub : List (String × Setting)) : w ≠ .table sub := by
  cases v <;> cases h <;> exact Setting.noConfusion

/-- A tree with what is read of entries that were printed. -/
structure Shows (tree es : List (String × Setting)) : Prop where
  apart : Apart tree
  row {name : String} {v w : Setting} (hv : named? name es = some v)
    (hrow : rowOf? (name, v) = some (name, w)) : named? name tree = some w
  missing {name : String} (hv : named? name es = some .nothing) : named? name tree = none
  table {name : String} {sub : List (String × Setting)} (hv : named? name es = some (.table sub)) :
    named? name tree = some (.table (sub.filterMap rowOf?))

theorem value?_rows {es : List (String × Setting)} (hes : Apart es) {name : String} {v : Setting}
    (hv : named? name es = some v) :
    named? name (es.filterMap rowOf?) = (rowOf? (name, v)).map Prod.snd := by
  rw [named?_eq] at hv ⊢
  rw [value?_filterMap (fun _ _ h => (Toml.rowOf?_eq_some h).1) hes, hv, Option.bind_some]

theorem value?_tables {es : List (String × Setting)} (hes : Apart es) {name : String} {v : Setting}
    (hv : named? name es = some v) :
    named? name (es.filterMap tableOf?) = (tableOf? (name, v)).map Prod.snd := by
  rw [named?_eq] at hv ⊢
  rw [value?_filterMap (fun _ _ => tableOf?_eq_some) hes, hv, Option.bind_some]

theorem named?_append (name : String) (es es' : List (String × Setting)) :
    named? name (es ++ es') = (named? name es).or (named? name es') := value?_append es'

theorem shows_printed {es : List (String × Setting)} (hes : Apart es)
    (hapart : Apart (es.filterMap rowOf? ++ es.filterMap tableOf?)) :
    Shows (es.filterMap rowOf? ++ es.filterMap tableOf?) es where
  apart := hapart
  row hv hrow := by
    rw [named?_append, value?_rows hes hv, hrow, Option.map_some, Option.some_or]
  missing hv := by
    rw [named?_append, value?_rows hes hv, value?_tables hes hv]
    rfl
  table hv := by
    rw [named?_append, value?_rows hes hv, value?_tables hes hv]
    rfl

/-- Entries without tables are all on lines. -/
theorem shows_rows {es : List (String × Setting)} (hes : Apart es)
    (hothers : es.filterMap tableOf? = []) (hapart : Apart (es.filterMap rowOf?)) :
    Shows (es.filterMap rowOf?) es := by
  have hshows := shows_printed hes (by rwa [hothers, List.append_nil])
  rwa [hothers, List.append_nil] at hshows

/-! ## Reading what was printed -/

section

variable {lower tree es : List (String × Setting)} {name : String} {α : Type}
  {read : Setting → Option α} (h : Shows tree es)

include h

/-- What was printed replaces what lies below it. -/
theorem Shows.elim_eq {v w : Setting} (hv : named? name es = some v)
    (hrow : rowOf? (name, v) = some (name, w)) {default : Option α} {x : α}
    (hread : read w = some x) :
    (named? name (overlayEntries lower tree)).elim default read = some x := by
  rw [named?_overlayEntries h.apart, h.row hv hrow]
  cases named? name lower with
  | none => exact hread
  | some below =>
      have hover : overlay below w = w := by
        rw [overlay]
        exact fun _ upper _ heq => rowOf?_ne_table hrow upper heq
      rw [Option.elim_some, Option.elim_some, hover]
      exact hread

/-- What was left out is missing below too. -/
theorem Shows.elim_optional {write : α → Setting} {o : Option α}
    (hv : named? name es = some (ofOptional write o)) {w : α → Setting}
    (hrow : ∀ a, rowOf? (name, write a) = some (name, w a))
    (hread : ∀ a, optional? read (w a) = some (some a))
    (hlower : (named? name lower).elim (some none) (optional? read) = some none) :
    (named? name (overlayEntries lower tree)).elim (some none) (optional? read) = some o := by
  cases o with
  | none =>
      rw [named?_overlayEntries h.apart, h.missing hv]
      exact hlower
  | some a => exact h.elim_eq hv (hrow a) (hread a)

/-- Tables are joined with what lies below them. -/
theorem Shows.elim_table {sub below : List (String × Setting)}
    (hv : named? name es = some (.table sub)) (hbelow : named? name lower = some (.table below))
    {default : Option α} {x : α}
    (hread : read (.table (overlayEntries below (sub.filterMap rowOf?))) = some x) :
    (named? name (overlayEntries lower tree)).elim default read = some x := by
  rw [named?_overlayEntries h.apart, h.table hv, hbelow]
  exact hread

end

theorem within?_eq {low high n : ℤ} {v : Setting} (h : v.int? = some n) (hlow : low ≤ n)
    (hhigh : n < high) : within? low high v = some n := by
  simp [within?, h, Option.filter_some, hlow, hhigh]

theorem word?_eq {v : Setting} {n : UInt64} (h : v.int? = some (n.toNat : ℤ)) :
    word? v = some n := by
  have hn := n.toNat_lt
  rw [word?, within?_eq h (Int.natCast_nonneg _) (by simp only [UInt64.size]; omega)]
  simp

theorem optionalWord?_eq {v : Setting} {n : UInt64} (h : v.int? = some (n.toNat : ℤ)) :
    optional? word? v = some (some n) := by
  cases v with
  | nothing => cases h
  | _ =>
      rw [optional?, word?_eq h, Option.map_some]
      exact Setting.noConfusion

theorem byte?_eq {v : Setting} {n : UInt8} (h : v.int? = some (n.toNat : ℤ)) :
    byte? v = some n := by
  have hn := n.toNat_lt
  rw [byte?, within?_eq h (Int.natCast_nonneg _) (by simp only [UInt8.size]; omega)]
  simp

theorem signedByte?_eq {v : Setting} {n : Int8} (h : v.int? = some n.toInt) :
    signedByte? v = some n := by
  have hlow := n.le_toInt
  have hhigh := n.toInt_lt
  rw [signedByte?, within?_eq h (by omega) (by omega)]
  simp

theorem list?_map {α : Type} {read : Setting → Option α} {write : α → Setting}
    (h : ∀ a, read (write a) = some a) (xs : List α) :
    list? read (.list (xs.map write)) = some xs := by
  rw [list?, List.mapM_map]
  induction xs with
  | nil => rfl
  | cons x xs ih =>
      rw [List.mapM_cons]
      simp only [Function.comp_apply, h, bind, Option.bind_some]
      exact (congrArg (Option.bind · _) ih).trans rfl

section

variable {tree lower rows : List (String × Setting)}

theorem Shows.weights? {w : Weights Float} (h : Shows rows w.settings.entries) :
    (Setting.table (overlayEntries lower rows)).weights? = some w :=
  weights?_eq_some_iff.mpr ⟨h.elim_eq rfl rfl rfl, h.elim_eq rfl rfl rfl, h.elim_eq rfl rfl rfl⟩

/-- The bounds of the standard strategy are missing too. -/
theorem Shows.strategy? {s : Strategy Float} (h : Shows rows s.settings.entries) :
    (Setting.table (overlayEntries Config.standard.strategy.settings.entries rows)).strategy? =
      some s := by
  have hoptional {name : String} {o : Option Float}
      (hv : named? name s.settings.entries = some (ofOptional decimal o))
      (hlower : (named? name Config.standard.strategy.settings.entries).elim (some none)
        (optional? float?) = some none) :
      (named? name (overlayEntries Config.standard.strategy.settings.entries rows)).elim (some none)
        (optional? float?) = some o :=
    h.elim_optional hv (fun _ => rfl) (fun _ => rfl) hlower
  refine strategy?_eq_some_iff.mpr ?_
  cases s with
  | exponential gamma low high =>
      exact ⟨h.elim_eq rfl rfl rfl, fits_table _ _, h.elim_eq rfl rfl rfl, hoptional rfl rfl,
        hoptional rfl rfl⟩
  | greedy epsilon step =>
      exact ⟨h.elim_eq rfl rfl rfl, fits_table _ _, h.elim_eq rfl rfl rfl, hoptional rfl rfl⟩

theorem Config.named?_weights (c : Config) :
    named? "reward" c.settings.entries = some (.table c.weights.settings.entries) := rfl

theorem Config.named?_strategy (c : Config) :
    named? "strategy" c.settings.entries = some (.table c.strategy.settings.entries) := by
  change some c.strategy.settings = _
  cases c.strategy <;> rfl

/-- A configuration is read from what was printed of it, the standard values below. -/
theorem Shows.config? {c : Config} (h : Shows tree c.settings.entries)
    (hweights : Shows (c.weights.settings.entries.filterMap rowOf?) c.weights.settings.entries)
    (hstrategy : Shows (c.strategy.settings.entries.filterMap rowOf?) c.strategy.settings.entries) :
    (Setting.table (overlayEntries Config.standard.settings.entries tree)).config? = some c := by
  have hword {name : String} {n : UInt64} (hv : named? name c.settings.entries = some (ofWord n))
      {default : Option UInt64} : (named? name
        (overlayEntries Config.standard.settings.entries tree)).elim default word? = some n :=
    h.elim_eq hv rfl (word?_eq rfl)
  have hoptional {name : String} {o : Option UInt64}
      (hv : named? name c.settings.entries = some (ofOptional ofWord o))
      (hlower : (named? name Config.standard.settings.entries).elim (some none)
        (optional? word?) = some none) :
      (named? name (overlayEntries Config.standard.settings.entries tree)).elim (some none)
        (optional? word?) = some o :=
    h.elim_optional hv (fun _ => rfl) (fun _ => optionalWord?_eq rfl) hlower
  have hlist {α : Type} {name : String} {read : Setting → Option α} {write : α → Setting}
      {xs : List α} {default : Option (List α)}
      (hv : named? name c.settings.entries = some (.list (xs.map write)))
      (hread : ∀ a, read (Toml.plain (write a)) = some a) :
      (named? name (overlayEntries Config.standard.settings.entries tree)).elim default
        (list? read) = some xs := by
    refine h.elim_eq hv rfl ?_
    rw [Toml.normal, List.map_map]
    exact list?_map hread xs
  exact config?_eq_some_iff.mpr ⟨h.elim_eq rfl rfl rfl, hlist rfl fun _ => byte?_eq rfl,
    hlist rfl fun _ => signedByte?_eq rfl, hoptional rfl rfl, hword rfl, hword rfl, hword rfl,
    hword rfl, hoptional rfl rfl, h.elim_eq rfl rfl rfl,
    h.elim_table c.named?_weights rfl hweights.weights?,
    h.elim_table c.named?_strategy rfl hstrategy.strategy?⟩

end

/-- A configuration is read from its text, with nothing said but by that. -/
theorem Config.layers_printed {c : Config} {text : String} (h : c.toToml? = some text)
    (path : String) :
    ∃ trees, Sources.layers ⟨some ⟨path, some text⟩, [], {}⟩ = .ok trees ∧
      (Setting.layers trees).config? = some c := by
  have hread := Toml.read?_of_write? h c.orderly_settings fun _ _ hmem => c.orderly_tables hmem
  have hdistinct := Toml.distinct_of_read? hread
  have hshows := shows_printed c.orderly_settings.apart hdistinct.apart_entries
  have hrows {name : String} {sub : List (String × Setting)}
      (hv : named? name c.settings.entries = some (.table sub))
      (hothers : sub.filterMap tableOf? = []) : Shows (sub.filterMap rowOf?) sub :=
    shows_rows (c.orderly_tables (mem_of_value? hv)).apart hothers
      (hdistinct.entry (mem_of_value? (hshows.table hv))).apart_entries
  have hstrategy : c.strategy.settings.entries.filterMap tableOf? = [] := by
    cases c.strategy with
    | exponential gamma low high => cases low <;> cases high <;> rfl
    | greedy epsilon step => cases step <;> rfl
  refine ⟨_, Sources.layers_eq_ok_iff.mpr ⟨_, .table [], hread, rfl, rfl⟩, ?_⟩
  exact hshows.config? (hrows c.named?_weights rfl) (hrows c.named?_strategy hstrategy)

/-- A configuration is read from its own tree. -/
theorem Config.config?_settings (c : Config) : c.settings.config? = some c := by
  have hread {α : Type} {name : String} {v : Setting} {read : Setting → Option α}
      {default : Option α} {x : α} (hv : named? name c.settings.entries = some v)
      (h : read v = some x) :
      (named? name c.settings.entries).elim default read = some x := by
    rw [hv]
    exact h
  have hword {o : Option UInt64} : optional? word? (ofOptional ofWord o) = some o := by
    cases o with
    | none => rfl
    | some n => exact optionalWord?_eq rfl
  have hdecimal {o : Option Float} : optional? float? (ofOptional decimal o) = some o := by
    cases o <;> rfl
  have hstrategy : c.strategy.settings.strategy? = some c.strategy := by
    refine strategy?_eq_some_iff.mpr ?_
    cases c.strategy with
    | exponential gamma low high => exact ⟨rfl, fits_table _ _, rfl, hdecimal, hdecimal⟩
    | greedy epsilon step => exact ⟨rfl, fits_table _ _, rfl, hdecimal⟩
  exact config?_eq_some_iff.mpr ⟨hread rfl rfl, hread rfl (list?_map (fun _ => byte?_eq rfl) _),
    hread rfl (list?_map (fun _ => signedByte?_eq rfl) _), hread rfl hword,
    hread rfl (word?_eq rfl), hread rfl (word?_eq rfl), hread rfl (word?_eq rfl),
    hread rfl (word?_eq rfl), hread rfl hword, hread rfl rfl,
    hread rfl (weights?_eq_some_iff.mpr ⟨rfl, rfl, rfl⟩), hread rfl hstrategy⟩

theorem load_seed (n : UInt64) : Sources.load ⟨none, [], { seed := some n }⟩ =
    .ok { Config.standard with seed := some n } := by
  have hlayers : Sources.layers ⟨none, [], { seed := some n }⟩ =
      .ok [Config.standard.settings, .table [], .table [], .table [("seed", ofWord n)]] :=
    Sources.layers_eq_ok_iff.mpr ⟨_, _, rfl, rfl, rfl⟩
  have htree : Setting.layers [Config.standard.settings, .table [], .table [],
      .table [("seed", ofWord n)]] = Config.settings { Config.standard with seed := some n } := rfl
  obtain ⟨htime, hstartable⟩ := Config.check_eq_ok_iff.mp (rfl : Config.standard.check = .ok ())
  exact Sources.load_eq_ok_iff.mpr ⟨by simp, _, hlayers, htree ▸ Config.config?_settings _,
    Config.check_eq_ok_iff.mpr ⟨htime, Config.startable_with_seed.mpr hstartable⟩⟩

/-- A configuration that was loaded is printed and loaded back from the text as it was if and only
if eight bytes with a sign hold all its numbers of eight bytes, and otherwise it is not printed. -/
theorem printed_reads_back_iff {s : Sources} {c : Config} (h : s.load = .ok c) :
    ((∃ text, c.toToml? = some text ∧
        ∀ path, Sources.load ⟨some ⟨path, some text⟩, [], {}⟩ = .ok c) ↔
      ∀ n ∈ c.words, n.toNat < Decimal.signedLimit) ∧
    (c.toToml? = none ↔ ∃ n ∈ c.words, Decimal.signedLimit ≤ n.toNat) := by
  obtain ⟨-, -, -, -, hcheck⟩ := Sources.load_eq_ok_iff.mp h
  constructor
  · rw [← Config.isSome_toToml?_iff, Option.isSome_iff_exists]
    refine exists_congr fun text => and_iff_left_of_imp fun htext path => ?_
    obtain ⟨trees, htrees, hconfig⟩ := Config.layers_printed htext path
    exact Sources.load_eq_ok_iff.mpr ⟨by simp, trees, htrees, hconfig, hcheck⟩
  · rw [← Option.not_isSome_iff_eq_none, Config.isSome_toToml?_iff]
    simp only [not_forall, not_lt, exists_prop]

theorem printed_reads_back_iff_with_seed :
    Sources.load ⟨none, [], { seed := some 7 }⟩ = .ok { Config.standard with seed := some 7 } ∧
      ∃ text, Config.toToml? { Config.standard with seed := some 7 } = some text ∧
        ∀ path, Sources.load ⟨some ⟨path, some text⟩, [], {}⟩ =
          .ok { Config.standard with seed := some 7 } :=
  ⟨load_seed 7, (printed_reads_back_iff (load_seed 7)).1.mpr
    (by simp [Config.words, Config.standard, Decimal.signedLimit])⟩

/-- A seed that eight bytes hold without a sign only is loaded from the command line, but not
printed. -/
theorem not_printed_with_great_seed : ∃ c,
    Sources.load ⟨none, [], { seed := some 9223372036854775808 }⟩ = .ok c ∧
      c.seed = some 9223372036854775808 ∧ c.toToml? = none := by
  refine ⟨_, load_seed 9223372036854775808, rfl, ?_⟩
  rw [← Option.not_isSome_iff_eq_none, Config.isSome_toToml?_iff]
  simp [Config.words, Config.standard, Decimal.signedLimit]

end LinkTuner

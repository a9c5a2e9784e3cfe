import LinkTuner.Proofs.Config.Parts
import LinkTuner.Proofs.Config.Variables
import LinkTuner.Proofs.Toml.Lines

/-!
# Sources over each other

The command line lies over the environment, that over the file, and that over the standard values.
Main statement: each leaf of a configuration has the value of the uppermost source that gives it. A
source that gives the weights or the strategy as something other than a table hides what the sources
below it say of them, and a list gives their leaves by their places. The variable of the log changes
nothing, and what is loaded has been checked.
-/

namespace LinkTuner

open Setting

/-! ## Leaves -/

/-- A leaf of a configuration. -/
structure Leaf where
  path : List String
  /-- Its place when its table is given as a list. -/
  place : ℕ
  /-- A setting in the form that the leaf has in a configuration. -/
  form : Setting → Option Setting
  /-- What holds where no source gives the leaf. -/
  own : Option Setting

namespace Leaf

/-- The leaf of values that are read and written in the given ways. -/
def of {α : Type} (path : List String) (place : ℕ) (read : Setting → Option α) (write : α → Setting)
    (own : Option α) : Leaf := ⟨path, place, fun v => (read v).map write, own.map write⟩

/-- What decides a leaf in sources, the uppermost first. Where the uppermost source that gives the
table gives it as a list, that is the item in the place of the leaf. -/
def decided? (leaf : Leaf) (sources : List Setting) : Option Setting :=
  match leaf.path with
  | [group, name] =>
    match found? [group] sources with
    | some (.list vs) => vs[leaf.place]?
    | _ => found? [group, name] sources
  | path => found? path sources

end Leaf

/-- The leaves of the parameters of a strategy. -/
def Strategy.leaves : Strategy Float → List Leaf
  | .exponential .. =>
    [.of ["strategy", "gamma"] 1 float? .decimal (some 0.1),
      .of ["strategy", "reward_min"] 2 (optional? float?) (.ofOptional .decimal) (some none),
      .of ["strategy", "reward_max"] 3 (optional? float?) (.ofOptional .decimal) (some none)]
  | .greedy .. =>
    [.of ["strategy", "epsilon"] 1 float? .decimal (some 0.1),
      .of ["strategy", "step_size"] 2 (optional? float?) (.ofOptional .decimal) (some none)]

/-- The leaves of a configuration. -/
def Config.leaves (c : Config) : List Leaf :=
  [.of ["listen_addr"] 0 text? .text (some standard.listenAddress),
    .of ["spreading_factors"] 1 (list? byte?) (fun ns => .list (ns.map fun n => .natural n.toNat))
      (some standard.factors),
    .of ["tx_powers_dbm"] 2 (list? signedByte?) (fun ns => .list (ns.map fun n => .whole n.toInt))
      (some standard.powers),
    .of ["arms"] 3 (optional? word?) (.ofOptional .ofWord) (some standard.arms),
    .of ["timeout_ms"] 4 word? .ofWord (some standard.timeout),
    .of ["max_devices"] 5 word? .ofWord (some standard.maxDevices),
    .of ["history_len"] 6 word? .ofWord (some standard.historyLength),
    .of ["status_interval_secs"] 7 word? .ofWord (some standard.statusInterval),
    .of ["seed"] 8 (optional? word?) (.ofOptional .ofWord) (some standard.seed),
    .of ["log_level"] 9 text? .text (some standard.logLevel),
    .of ["reward", "alpha"] 0 float? .decimal (some standard.weights.alpha),
    .of ["reward", "beta"] 1 float? .decimal (some standard.weights.beta),
    .of ["reward", "energy_reference_j"] 2 float? .decimal (some standard.weights.reference),
    .of ["strategy", "kind"] 0 kind? .text (some standard.strategy.name)] ++ c.strategy.leaves

/-! ## Reading a leaf -/

section

variable {α : Type} {read : Setting → Option α} {default : Option α} {a b : Option Setting} {x : α}

/-- A reader that takes no table reads the same from alike settings. -/
theorem Setting.Alike.elim_eq (h : Alike a b) (hread : ∀ es, read (.table es) = none)
    (ha : a.elim default read = some x) : b.elim default read = some x := by
  cases h with
  | same => exact ha
  | tables es es' =>
      rw [Option.elim_some, hread] at ha
      cases ha

theorem elim_map (write : α → Setting) (ha : a.elim default read = some x) :
    a.elim (default.map write) (fun v => (read v).map write) = some (write x) := by
  cases a with
  | none => exact congrArg (Option.map write) ha
  | some v => exact congrArg (Option.map write) ha

end

section

variable {trees : List Setting} {es : List (String × Setting)}
  (hdistinct : ∀ t ∈ trees, t.Distinct) (hlayers : layers trees = .table es)

include hdistinct hlayers

/-- A leaf at the root is decided as it is found in all trees together. -/
theorem alike_decided (name : String) {leaf : Leaf} (hpath : leaf.path = [name]) :
    Alike (named? name es) (leaf.decided? trees.reverse) := by
  have halike := at?_layers hdistinct (List.cons_ne_nil name [])
  rw [hlayers, at?] at halike
  simp only [Leaf.decided?, hpath]
  cases hname : named? name es with
  | none => simpa [hname] using halike
  | some v => simpa [hname, at?] using halike

/-- A leaf in a table or in a list is decided as it is found in all trees together. -/
theorem alike_decided_part {group : String} (name : String) {leaf : Leaf}
    (hpath : leaf.path = [group, name]) (hgroup : ∀ v, named? group es = some v → v.HasParts) :
    Alike ((named? group es).bind (part? leaf.place name)) (leaf.decided? trees.reverse) := by
  have halike := at?_layers hdistinct (List.cons_ne_nil group [])
  have hwhole := at?_layers hdistinct (List.cons_ne_nil group [name])
  simp only [hlayers, at?] at halike hwhole
  simp only [Leaf.decided?, hpath]
  cases hv : named? group es with
  | none =>
      rw [hv] at halike hwhole
      rw [halike.eq_none rfl]
      exact hwhole
  | some v =>
      rw [hv] at halike hwhole
      obtain ⟨entries, rfl⟩ | ⟨vs, rfl⟩ := hgroup v hv
      · have hsame : Alike ((Setting.table entries).part? leaf.place name)
            (found? [group, name] trees.reverse) := by
          rw [part?]
          cases hname : named? name entries with
          | none => simpa [at?, hname] using hwhole
          | some w => simpa [at?, hname] using hwhole
        change Alike (some (.table entries)) _ at halike
        generalize found? [group] trees.reverse = found at halike
        cases halike with
        | same => exact hsame
        | tables => exact hsame
      · rw [halike.eq_some rfl (by simp)]
        exact .same _

/-- What is read of a leaf at the root is what decides it. -/
theorem leaf_eq {α : Type} {read : Setting → Option α} {write : α → Setting} {default : Option α}
    {x : α} (name : String) (place : ℕ) (hread : ∀ es, read (.table es) = none)
    (h : (named? name es).elim default read = some x) :
    let leaf := Leaf.of [name] place read write default
    (leaf.decided? trees.reverse).elim leaf.own leaf.form = some (write x) :=
  elim_map write ((alike_decided hdistinct hlayers name rfl).elim_eq hread h)

/-- What is read of a leaf in a table or in a list is what decides it. -/
theorem leaf_part_eq {α : Type} {read : Setting → Option α} {write : α → Setting}
    {default : Option α} {x : α} {group : String} (name : String) (place : ℕ)
    (hgroup : ∀ v, named? group es = some v → v.HasParts)
    (hread : ∀ es, read (.table es) = none)
    (h : ((named? group es).bind (part? place name)).elim default read = some x) :
    let leaf := Leaf.of [group, name] place read write default
    (leaf.decided? trees.reverse).elim leaf.own leaf.form = some (write x) :=
  elim_map write ((alike_decided_part hdistinct hlayers name rfl hgroup).elim_eq hread h)

end

/-! ## Loading -/

namespace Sources

variable {s : Sources} {c : Config} {trees : List Setting}

theorem elim_error_eq_ok_iff {α : Type} {o : Option α} {fault : LoadFault} {a : α} :
    o.elim (.error fault) .ok = (.ok a : Except LoadFault α) ↔ o = some a := by
  cases o <;> simp

theorem layers_eq_ok_iff : s.layers = .ok trees ↔
    ∃ file environment, s.fileSettings? = some file ∧
      Environment.settings? s.environment = some environment ∧
      trees = [Config.standard.settings, file, environment, s.overrides.settings] := by
  simp only [layers, bind_eq_ok_iff, elim_error_eq_ok_iff, pure, Except.pure, Except.ok.injEq]
  constructor
  · rintro ⟨environment, henvironment, file, hfile, rfl⟩
    exact ⟨file, environment, hfile, henvironment, rfl⟩
  · rintro ⟨file, environment, hfile, henvironment, rfl⟩
    exact ⟨environment, henvironment, file, hfile, rfl⟩

theorem load_eq_ok_iff : s.load = .ok c ↔
    (∀ path, s.file ≠ some ⟨path, none⟩) ∧
      ∃ trees, s.layers = .ok trees ∧ (Setting.layers trees).config? = some c ∧
        c.check = .ok () := by
  have hsteps : (do
      let c ← s.config
      (c.check.mapError LoadFault.start).map fun _ => c) = .ok c ↔
      ∃ trees, s.layers = .ok trees ∧ (Setting.layers trees).config? = some c ∧
        c.check = .ok () := by
    simp only [config, bind_eq_ok_iff, elim_error_eq_ok_iff]
    constructor
    · rintro ⟨found, ⟨trees, htrees, hconfig⟩, hchecked⟩
      cases hcheck : found.check with
      | error cause => simp [hcheck, Except.mapError, Except.map] at hchecked
      | ok _ =>
          obtain rfl : found = c := by simpa [hcheck, Except.mapError, Except.map] using hchecked
          exact ⟨trees, htrees, hconfig, hcheck⟩
    · rintro ⟨trees, htrees, hconfig, hcheck⟩
      exact ⟨c, ⟨trees, htrees, hconfig⟩, by rw [hcheck]; rfl⟩
  unfold load
  split
  next path hfile =>
    simp only [reduceCtorEq, false_iff, not_and]
    exact fun h => absurd hfile (h path)
  next hfile =>
    rw [hsteps]
    exact ⟨fun h => ⟨fun path => hfile path, h⟩, And.right⟩

end Sources

theorem distinct_ofOptional {α : Type} {write : α → Setting} (h : ∀ a es, write a ≠ .table es)
    (o : Option α) : (ofOptional write o).Distinct := by
  cases o with
  | none => exact .other nofun
  | some a => exact .other (h a)

theorem Weights.distinct_settings (w : Weights Float) : w.settings.Distinct := by
  refine .table (show List.Nodup ["alpha", "beta", "energy_reference_j"] by decide) ?_
  simp only [List.forall_mem_cons, List.not_mem_nil, false_implies, implies_true, and_true]
  exact ⟨.other nofun, .other nofun, .other nofun⟩

theorem Strategy.distinct_settings (s : Strategy Float) : s.settings.Distinct := by
  cases s with
  | exponential gamma low high =>
      refine .table (show List.Nodup ["kind", "gamma", "reward_min", "reward_max"] by decide) ?_
      simp only [List.forall_mem_cons, List.not_mem_nil, false_implies, implies_true, and_true]
      exact ⟨.other nofun, .other nofun, distinct_ofOptional (by exact fun _ => nofun) _,
        distinct_ofOptional (by exact fun _ => nofun) _⟩
  | greedy epsilon step =>
      refine .table (show List.Nodup ["kind", "epsilon", "step_size"] by decide) ?_
      simp only [List.forall_mem_cons, List.not_mem_nil, false_implies, implies_true, and_true]
      exact ⟨.other nofun, .other nofun, distinct_ofOptional (by exact fun _ => nofun) _⟩

/-- The tree of a configuration has no name twice. -/
theorem Config.distinct_settings (c : Config) : c.settings.Distinct := by
  refine .table (show List.Nodup ["listen_addr", "spreading_factors", "tx_powers_dbm", "arms",
    "timeout_ms", "max_devices", "history_len", "status_interval_secs", "seed", "log_level",
    "reward", "strategy"] by decide +kernel) ?_
  simp only [List.forall_mem_cons, List.not_mem_nil, false_implies, implies_true, and_true]
  exact ⟨.other nofun, .other nofun, .other nofun, distinct_ofOptional (by exact fun _ => nofun) _,
    .other nofun, .other nofun, .other nofun, .other nofun,
    distinct_ofOptional (by exact fun _ => nofun) _, .other nofun, c.weights.distinct_settings,
    c.strategy.distinct_settings⟩

theorem Sources.distinct_of_layers {s : Sources} {trees : List Setting} (h : s.layers = .ok trees) :
    ∀ t ∈ trees, t.Distinct := by
  obtain ⟨file, environment, hfile, henvironment, rfl⟩ := layers_eq_ok_iff.mp h
  have hfile : file.Distinct := by
    unfold fileSettings? at hfile
    split at hfile
    · cases hfile
      exact distinct_empty
    · exact Toml.distinct_of_read? hfile
  simp only [List.forall_mem_cons, List.not_mem_nil, false_implies, implies_true, and_true]
  exact ⟨Config.standard.distinct_settings, hfile,
    Environment.distinct_of_settings? henvironment, s.overrides.distinct_settings⟩

theorem Strategy.at?_kind (s : Strategy Float) : s.settings.at? ["kind"] = some (.text s.name) := by
  cases s <;> rfl

/-- What is loaded holds what its leaves are decided to be. -/
theorem Config.leaf_decided {trees : List Setting} (hdistinct : ∀ t ∈ trees, t.Distinct)
    {c : Config} (h : (layers trees).config? = some c) {leaf : Leaf} (hleaf : leaf ∈ c.leaves) :
    (leaf.decided? trees.reverse).elim leaf.own leaf.form = c.settings.at? leaf.path := by
  obtain ⟨es, hlayers⟩ : ∃ es, layers trees = .table es := by
    cases hroot : layers trees with
    | table es => exact ⟨es, rfl⟩
    | _ =>
        rw [hroot] at h
        cases h
  rw [hlayers] at h
  obtain ⟨hlisten, hfactors, hpowers, harms, htimeout, hdevices, hhistory, hinterval, hseed, hlog,
    hweights, hstrategy⟩ := config?_eq_some_iff.mp h
  obtain ⟨hreward, halpha, hbeta, hreference⟩ := weights_parts hweights
  obtain ⟨hgroup, hkind, hparameters⟩ := strategy_parts hstrategy
  simp only [Config.leaves, List.cons_append, List.nil_append, List.mem_cons] at hleaf
  obtain rfl | rfl | rfl | rfl | rfl | rfl | rfl | rfl | rfl | rfl | rfl | rfl | rfl | rfl |
    hleaf := hleaf
  · exact leaf_eq hdistinct hlayers _ _ (fun _ => rfl) hlisten
  · exact leaf_eq hdistinct hlayers _ _ (fun _ => rfl) hfactors
  · exact leaf_eq hdistinct hlayers _ _ (fun _ => rfl) hpowers
  · exact leaf_eq hdistinct hlayers _ _ (fun _ => rfl) harms
  · exact leaf_eq hdistinct hlayers _ _ (fun _ => rfl) htimeout
  · exact leaf_eq hdistinct hlayers _ _ (fun _ => rfl) hdevices
  · exact leaf_eq hdistinct hlayers _ _ (fun _ => rfl) hhistory
  · exact leaf_eq hdistinct hlayers _ _ (fun _ => rfl) hinterval
  · exact leaf_eq hdistinct hlayers _ _ (fun _ => rfl) hseed
  · exact leaf_eq hdistinct hlayers _ _ (fun _ => rfl) hlog
  · exact leaf_part_eq hdistinct hlayers _ _ hreward (fun _ => rfl) halpha
  · exact leaf_part_eq hdistinct hlayers _ _ hreward (fun _ => rfl) hbeta
  · exact leaf_part_eq hdistinct hlayers _ _ hreward (fun _ => rfl) hreference
  · exact (leaf_part_eq hdistinct hlayers _ _ hgroup (fun _ => rfl) hkind).trans
      c.strategy.at?_kind.symm
  · have hsettings (path : List String) :
        c.settings.at? ("strategy" :: path) = c.strategy.settings.at? path := rfl
    generalize c.strategy = s at hleaf hparameters hsettings
    cases s with
    | exponential gamma low high =>
        obtain ⟨hgamma, hlow, hhigh⟩ := hparameters
        simp only [Strategy.leaves, List.mem_cons, List.not_mem_nil, or_false] at hleaf
        obtain rfl | rfl | rfl := hleaf
        · rw [Leaf.of, hsettings]
          exact leaf_part_eq hdistinct hlayers _ _ hgroup (fun _ => rfl) hgamma
        · rw [Leaf.of, hsettings]
          exact leaf_part_eq hdistinct hlayers _ _ hgroup (fun _ => rfl) hlow
        · rw [Leaf.of, hsettings]
          exact leaf_part_eq hdistinct hlayers _ _ hgroup (fun _ => rfl) hhigh
    | greedy epsilon step =>
        obtain ⟨hepsilon, hstep⟩ := hparameters
        simp only [Strategy.leaves, List.mem_cons, List.not_mem_nil, or_false] at hleaf
        obtain rfl | rfl := hleaf
        · rw [Leaf.of, hsettings]
          exact leaf_part_eq hdistinct hlayers _ _ hgroup (fun _ => rfl) hepsilon
        · rw [Leaf.of, hsettings]
          exact leaf_part_eq hdistinct hlayers _ _ hgroup (fun _ => rfl) hstep

theorem Leaf.decided?_eq_findSome? {leaf : Leaf} {sources : List Setting}
    (h : ∀ t ∈ sources, t.hides leaf.path = false) :
    leaf.decided? sources = sources.findSome? (at? leaf.path) := by
  have hfound := found?_eq_findSome? h
  unfold decided?
  split
  next group name hpath =>
    rw [hpath] at h hfound ⊢
    split
    next vs hlist =>
      obtain ⟨t, ht, hat⟩ := exists_of_found? hlist
      have hhides : t.hides [group, name] = true := by
        cases t with
        | table es =>
            rw [at?] at hat
            cases hv : named? group es with
            | none => simp [hv] at hat
            | some v =>
                obtain rfl : v = .list vs := by simpa [hv, at?] using hat
                rw [hides, hv]
                rfl
        | _ => cases hat
      rw [h t ht] at hhides
      cases hhides
    next => exact hfound
  next => exact hfound

/-- Loading gives each leaf what decides it in the sources, from the command line down to the
standard values. Where no source hides anything, that is what the uppermost source that has the leaf
says. The variable of the log may say anything, and the configuration is one that a controller
starts with. -/
theorem leaves_from_uppermost_source {s : Sources} {c : Config} (h : s.load = .ok c) :
    ∃ file environment, s.fileSettings? = some file ∧
      Environment.settings? s.environment = some environment ∧
      (∀ leaf ∈ c.leaves,
        let sources := [s.overrides.settings, environment, file, Config.standard.settings]
        c.settings.at? leaf.path = (leaf.decided? sources).elim leaf.own leaf.form ∧
          ((∀ t ∈ sources, t.hides leaf.path = false) →
            leaf.decided? sources = sources.findSome? (at? leaf.path))) ∧
      (∀ bindings, (bindings.filter fun binding => !Environment.isLog binding.1) =
          (s.environment.filter fun binding => !Environment.isLog binding.1) →
        { s with environment := bindings }.load = .ok c) ∧
      c.check = .ok () := by
  obtain ⟨hfile, trees, htrees, hconfig, hcheck⟩ := Sources.load_eq_ok_iff.mp h
  have hdistinct := Sources.distinct_of_layers htrees
  obtain ⟨file, environment, hsettings, henvironment, rfl⟩ := Sources.layers_eq_ok_iff.mp htrees
  refine ⟨file, environment, hsettings, henvironment, fun leaf hleaf => ⟨?_, ?_⟩, ?_, hcheck⟩
  · exact (Config.leaf_decided hdistinct hconfig hleaf).symm
  · exact Leaf.decided?_eq_findSome?
  · intro bindings hbindings
    refine Sources.load_eq_ok_iff.mpr ⟨hfile, _, ?_, hconfig, hcheck⟩
    refine Sources.layers_eq_ok_iff.mpr ⟨file, environment, hsettings, ?_, rfl⟩
    rw [← Environment.settings?_filter, hbindings, Environment.settings?_filter, henvironment]

/-- A file with a parameter of the strategy, a variable that gives the whole strategy as text, and
an option for its kind. -/
private def textBetween : Sources :=
  { file := some ⟨"config.toml", some "\n[strategy]\ngamma = 1\n"⟩
    environment := [("ADR_STRATEGY", "off")]
    overrides := { strategy := some "exp3" } }

private theorem fileSettings?_textBetween : textBetween.fileSettings? =
    some (.table [("strategy", .table [("gamma", .whole 1)])]) := by
  have hwrite : Toml.write? [("strategy", .table [("gamma", .whole 1)])] =
      some "\n[strategy]\ngamma = 1\n" := by decide +kernel
  have hsub : Toml.Orderly [("gamma", .whole 1)] :=
    ⟨List.nodup_singleton _, by decide, by simp [Toml.Storable, Toml.Held, Decimal.signedLimit]⟩
  have hes : Toml.Orderly [("strategy", .table [("gamma", .whole 1)])] :=
    ⟨List.nodup_singleton _, by decide, by simp [Toml.Storable, Toml.Held]⟩
  have hread := Toml.read?_of_write? hwrite hes (by simpa using hsub)
  simp only [Sources.fileSettings?, textBetween, Option.bind_some]
  exact hread

private theorem load_textBetween : textBetween.load = .ok .standard := by
  have hlayers := Sources.layers_eq_ok_iff.mpr ⟨_, .table [("strategy", .text "off")],
    fileSettings?_textBetween, rfl, rfl⟩
  exact Sources.load_eq_ok_iff.mpr ⟨fun _ => nofun, _, hlayers, rfl, rfl⟩

theorem leaves_from_uppermost_source_past_text : textBetween.load = .ok .standard ∧
    ∃ file environment, textBetween.fileSettings? = some file ∧
      Environment.settings? textBetween.environment = some environment ∧
      ∀ leaf ∈ Config.standard.leaves,
        let sources := [textBetween.overrides.settings, environment, file, Config.standard.settings]
        Config.standard.settings.at? leaf.path =
          (leaf.decided? sources).elim leaf.own leaf.form := by
  obtain ⟨file, environment, hfile, henvironment, hleaves, -⟩ :=
    leaves_from_uppermost_source load_textBetween
  exact ⟨load_textBetween, file, environment, hfile, henvironment,
    fun leaf hleaf => (hleaves leaf hleaf).1⟩

/-- Text in the place of the strategy hides what the file says of it, although it has itself no
setting at the path and the option turns the strategy into a table again. -/
theorem text_hides_setting_of_file : ∃ file environment,
    textBetween.fileSettings? = some file ∧
      Environment.settings? textBetween.environment = some environment ∧
      textBetween.overrides.settings.at? ["strategy", "gamma"] = none ∧
      environment.at? ["strategy", "gamma"] = none ∧
      file.at? ["strategy", "gamma"] = some (.whole 1) ∧
      ∃ c, textBetween.load = .ok c ∧
        c.settings.at? ["strategy", "gamma"] = some (.decimal 0.1) ∧
        (Setting.whole 1).float? ≠ some 0.1 :=
  ⟨_, .table [("strategy", .text "off")], fileSettings?_textBetween, rfl, rfl, rfl, rfl, _,
    load_textBetween, rfl, by decide +kernel⟩

end LinkTuner

import LinkTuner.Config.Extract
import Mathlib.Tactic.SplitIfs

/-!
# What a configuration is read from

Each field of a configuration is read from the setting of one name, and each parameter of the
weights and of the strategy from a part of theirs. Main statement: a tree holds a configuration if
and only if each of its names holds the field of that name, or nothing where that is the standard.
-/

namespace LinkTuner.Setting

/-- The part of a setting: that of a name in a table, that of a place in a list. -/
def part? (place : Nat) (name : String) : Setting → Option Setting
  | .table es => named? name es
  | .list vs => vs[place]?
  | _ => none

/-- What is a table or a list. -/
def HasParts (v : Setting) : Prop := (∃ es, v = .table es) ∨ ∃ vs, v = .list vs

theorem hasParts_of_part? {v w : Setting} {place : Nat} {name : String}
    (h : v.part? place name = some w) : v.HasParts := by
  cases v with
  | table es => exact .inl ⟨es, rfl⟩
  | list vs => exact .inr ⟨vs, rfl⟩
  | _ => cases h

theorem readAt_eq {α : Type} (fields : List (Option Setting)) (i : Nat) (default : Option α)
    (read : Setting → Option α) :
    readAt fields i default read = (fields[i]?).join.elim default read := by
  rw [readAt]
  cases (fields[i]?).join <;> rfl

/-- Weights are read from their three parts. -/
theorem weights?_eq_some_iff {v : Setting} {w : Weights Float} :
    v.weights? = some w ↔
      (v.part? 0 "alpha").elim none float? = some w.alpha ∧
      (v.part? 1 "beta").elim none float? = some w.beta ∧
      (v.part? 2 "energy_reference_j").elim none float? = some w.reference := by
  obtain ⟨alpha, beta, reference⟩ := w
  have hread (f : List (Option Setting)) :
      (do return (⟨← readAt f 0 none float?, ← readAt f 1 none float?, ← readAt f 2 none float?⟩ :
        Weights Float)) = some ⟨alpha, beta, reference⟩ ↔
        (f[0]?).join.elim none float? = some alpha ∧ (f[1]?).join.elim none float? = some beta ∧
          (f[2]?).join.elim none float? = some reference := by
    simp only [readAt_eq, bind, Option.bind_eq_some_iff, pure, Option.some.injEq,
      Weights.mk.injEq]
    constructor
    · rintro ⟨_, halpha, _, hbeta, _, hreference, rfl, rfl, rfl⟩
      exact ⟨halpha, hbeta, hreference⟩
    · rintro ⟨halpha, hbeta, hreference⟩
      exact ⟨_, halpha, _, hbeta, _, hreference, rfl, rfl, rfl⟩
  cases v with
  | table es => exact hread [named? "alpha" es, named? "beta" es, named? "energy_reference_j" es]
  | list vs => exact hread [vs[0]?, vs[1]?, vs[2]?]
  | _ => simp [weights?, fields?, part?]

theorem elim_eq_some_of_none {α : Type} {o : Option Setting} {read : Setting → Option α} {x : α}
    (h : o.elim none read = some x) (default : Option α) : o.elim default read = some x := by
  cases o with
  | none => cases h
  | some v => exact h

/-- Weights of which nothing may be said are read from their parts, or are what holds then. -/
theorem weights_parts {entry : Option Setting} {default w : Weights Float}
    (h : entry.elim (some default) weights? = some w) :
    (∀ v, entry = some v → v.HasParts) ∧
      (entry.bind (part? 0 "alpha")).elim (some default.alpha) float? = some w.alpha ∧
      (entry.bind (part? 1 "beta")).elim (some default.beta) float? = some w.beta ∧
      (entry.bind (part? 2 "energy_reference_j")).elim (some default.reference) float? =
        some w.reference := by
  cases entry with
  | none =>
      cases h
      exact ⟨nofun, rfl, rfl, rfl⟩
  | some v =>
      obtain ⟨halpha, hbeta, hreference⟩ := weights?_eq_some_iff.mp h
      refine ⟨fun w hw => ?_, elim_eq_some_of_none halpha _, elim_eq_some_of_none hbeta _,
        elim_eq_some_of_none hreference _⟩
      cases hw
      cases hpart : v.part? 0 "alpha" with
      | none => simp [hpart] at halpha
      | some a => exact hasParts_of_part? hpart

/-! ## Strategies -/

/-- A setting that has at most so many items if it is a list. -/
def Fits (most : Nat) (v : Setting) : Prop := ∀ vs, v = .list vs → vs.length ≤ most

theorem fits_table (most : Nat) (es : List (String × Setting)) : (Setting.table es).Fits most :=
  nofun

theorem fits_list {most : Nat} {vs : List Setting} :
    (Setting.list vs).Fits most ↔ vs.length ≤ most :=
  ⟨fun h => h vs rfl, fun h _ heq => Setting.list.inj heq ▸ h⟩

theorem kind?_cases {v : Setting} {kind : String} (h : v.kind? = some kind) :
    kind = "exp3" ∨ kind = "epsilon-greedy" := by
  have hmem : kind ∈ kinds := by
    cases v with
    | text s =>
        rw [kind?] at h
        split_ifs at h with hs
        cases h
        simpa using hs
    | natural n => exact List.mem_of_getElem? h
    | _ => cases h
  simpa [kinds] using hmem

theorem parameters?_exponential {v : Setting} (hv : v.HasParts) {s : Strategy Float} :
    v.parameters? "exp3" = some s ↔
      ∃ gamma low high, s = .exponential gamma low high ∧ v.Fits 3 ∧
        (v.part? 0 "gamma").elim (some 0.1) float? = some gamma ∧
        (v.part? 1 "reward_min").elim (some none) (optional? float?) = some low ∧
        (v.part? 2 "reward_max").elim (some none) (optional? float?) = some high := by
  have hread (f : List (Option Setting)) :
      (do
        let share ← readAt f 0 (some 0.1) float?
        let second ← readAt f 1 (some none) (optional? float?)
        return .exponential share second (← readAt f 2 (some none) (optional? float?))) = some s ↔
      ∃ gamma low high, s = .exponential gamma low high ∧
        (f[0]?).join.elim (some 0.1) float? = some gamma ∧
        (f[1]?).join.elim (some none) (optional? float?) = some low ∧
        (f[2]?).join.elim (some none) (optional? float?) = some high := by
    simp only [readAt_eq, bind, Option.bind_eq_some_iff, pure, Option.some.injEq]
    constructor
    · rintro ⟨gamma, hgamma, low, hlow, high, hhigh, rfl⟩
      exact ⟨gamma, low, high, rfl, hgamma, hlow, hhigh⟩
    · rintro ⟨gamma, low, high, rfl, hgamma, hlow, hhigh⟩
      exact ⟨gamma, hgamma, low, hlow, high, hhigh, rfl⟩
  unfold parameters?
  obtain ⟨es, rfl⟩ | ⟨vs, rfl⟩ := hv
  · simp only [if_true, Bool.false_eq_true, if_false, fits_table, true_and]
    exact hread [named? "gamma" es, named? "reward_min" es, named? "reward_max" es]
  · simp only [if_true, fits_list]
    by_cases hmany : 3 < vs.length
    · simp [hmany, Nat.not_le.mpr hmany]
    · simp only [List.length_cons, List.length_nil, Nat.zero_add, Nat.reduceAdd, hmany,
        decide_false, Bool.false_eq_true, if_false, Nat.not_lt.mp hmany, true_and]
      exact hread [vs[0]?, vs[1]?, vs[2]?]

theorem parameters?_greedy {v : Setting} (hv : v.HasParts) {s : Strategy Float} :
    v.parameters? "epsilon-greedy" = some s ↔
      ∃ epsilon step, s = .greedy epsilon step ∧ v.Fits 2 ∧
        (v.part? 0 "epsilon").elim (some 0.1) float? = some epsilon ∧
        (v.part? 1 "step_size").elim (some none) (optional? float?) = some step := by
  have hread (f : List (Option Setting)) :
      (do
        let share ← readAt f 0 (some 0.1) float?
        return .greedy share (← readAt f 1 (some none) (optional? float?))) = some s ↔
      ∃ epsilon step, s = .greedy epsilon step ∧
        (f[0]?).join.elim (some 0.1) float? = some epsilon ∧
        (f[1]?).join.elim (some none) (optional? float?) = some step := by
    simp only [readAt_eq, bind, Option.bind_eq_some_iff, pure, Option.some.injEq]
    constructor
    · rintro ⟨epsilon, hepsilon, step, hstep, rfl⟩
      exact ⟨epsilon, step, rfl, hepsilon, hstep⟩
    · rintro ⟨epsilon, step, rfl, hepsilon, hstep⟩
      exact ⟨epsilon, hepsilon, step, hstep, rfl⟩
  have hkind : ¬"epsilon-greedy" = "exp3" := by decide
  unfold parameters?
  obtain ⟨es, rfl⟩ | ⟨vs, rfl⟩ := hv
  · simp only [hkind, Bool.false_eq_true, if_false, fits_table, true_and]
    exact hread [named? "epsilon" es, named? "step_size" es]
  · simp only [hkind, if_false, fits_list]
    by_cases hmany : 2 < vs.length
    · simp [hmany, Nat.not_le.mpr hmany]
    · simp only [List.length_cons, List.length_nil, Nat.zero_add, Nat.reduceAdd, hmany,
        decide_false, Bool.false_eq_true, if_false, Nat.not_lt.mp hmany, true_and]
      exact hread [vs[0]?, vs[1]?]

/-- What the parameters of a strategy are read from: in a list they come after the kind. -/
def afterKind : Setting → Setting
  | .list vs => .list vs.tail
  | v => v

theorem part?_afterKind (v : Setting) (place : Nat) (name : String) :
    v.afterKind.part? place name = v.part? (place + 1) name := by
  cases v <;> simp [afterKind, part?]

theorem fits_afterKind {v : Setting} {most : Nat} :
    v.afterKind.Fits most ↔ v.Fits (most + 1) := by
  cases v with
  | list vs => simp [afterKind, fits_list]
  | _ => exact ⟨fun _ => nofun, fun _ => nofun⟩

theorem HasParts.afterKind {v : Setting} (h : v.HasParts) : v.afterKind.HasParts := by
  obtain ⟨es, rfl⟩ | ⟨vs, rfl⟩ := h
  · exact .inl ⟨es, rfl⟩
  · exact .inr ⟨vs.tail, rfl⟩

theorem strategy?_eq_bind (v : Setting) :
    v.strategy? = (v.part? 0 "kind").elim none fun kind =>
      kind.kind?.bind fun name => parameters? name v.afterKind := by
  cases v with
  | table es => cases h : named? "kind" es <;> simp [strategy?, part?, afterKind, h]
  | list vs => cases vs <;> simp [strategy?, part?, afterKind]
  | _ => rfl

/-- A strategy is read from its kind and the parameters of that. -/
theorem strategy?_eq_some_iff {v : Setting} {s : Strategy Float} :
    v.strategy? = some s ↔
      match s with
      | .exponential gamma low high =>
        (v.part? 0 "kind").elim none kind? = some "exp3" ∧ v.Fits 4 ∧
          (v.part? 1 "gamma").elim (some 0.1) float? = some gamma ∧
          (v.part? 2 "reward_min").elim (some none) (optional? float?) = some low ∧
          (v.part? 3 "reward_max").elim (some none) (optional? float?) = some high
      | .greedy epsilon step =>
        (v.part? 0 "kind").elim none kind? = some "epsilon-greedy" ∧ v.Fits 3 ∧
          (v.part? 1 "epsilon").elim (some 0.1) float? = some epsilon ∧
          (v.part? 2 "step_size").elim (some none) (optional? float?) = some step := by
  rw [strategy?_eq_bind]
  cases hkind : v.part? 0 "kind" with
  | none => cases s <;> simp
  | some kind =>
      have hparts := (hasParts_of_part? hkind).afterKind
      cases hname : kind.kind? with
      | none => cases s <;> simp [hname]
      | some name =>
          simp only [Option.elim_some, hname, Option.bind_some, Option.some.injEq]
          obtain rfl | rfl := kind?_cases hname
          · rw [parameters?_exponential hparts]
            simp only [part?_afterKind, fits_afterKind]
            cases s with
            | exponential gamma low high =>
                constructor
                · rintro ⟨_, _, _, heq, hread⟩
                  cases heq
                  exact ⟨trivial, hread⟩
                · rintro ⟨-, hread⟩
                  exact ⟨_, _, _, rfl, hread⟩
            | greedy epsilon step => simp
          · rw [parameters?_greedy hparts]
            simp only [part?_afterKind, fits_afterKind]
            cases s with
            | exponential gamma low high => simp
            | greedy epsilon step =>
                constructor
                · rintro ⟨_, _, heq, hread⟩
                  cases heq
                  exact ⟨trivial, hread⟩
                · rintro ⟨-, hread⟩
                  exact ⟨_, _, rfl, hread⟩

/-- What the parameters of a strategy are read from. -/
def HasParameters (entry : Option Setting) : Strategy Float → Prop
  | .exponential gamma low high =>
    (entry.bind (part? 1 "gamma")).elim (some 0.1) float? = some gamma ∧
      (entry.bind (part? 2 "reward_min")).elim (some none) (optional? float?) = some low ∧
      (entry.bind (part? 3 "reward_max")).elim (some none) (optional? float?) = some high
  | .greedy epsilon step =>
    (entry.bind (part? 1 "epsilon")).elim (some 0.1) float? = some epsilon ∧
      (entry.bind (part? 2 "step_size")).elim (some none) (optional? float?) = some step

/-- A strategy of which nothing may be said is read from its kind and parameters, or is the standard
one. -/
theorem strategy_parts {entry : Option Setting} {s : Strategy Float}
    (h : entry.elim (some .standard) strategy? = some s) :
    (∀ v, entry = some v → v.HasParts) ∧
      (entry.bind (part? 0 "kind")).elim (some (Strategy.name (α := Float) .standard)) kind? =
        some s.name ∧
      HasParameters entry s := by
  cases entry with
  | none =>
      cases h
      exact ⟨nofun, rfl, rfl, rfl, rfl⟩
  | some v =>
      have hparts {kind : String} (hkind : (v.part? 0 "kind").elim none kind? = some kind)
          (w : Setting) (hw : some v = some w) : w.HasParts := by
        cases hw
        cases hpart : v.part? 0 "kind" with
        | none => simp [hpart] at hkind
        | some a => exact hasParts_of_part? hpart
      have hread := strategy?_eq_some_iff.mp h
      cases s with
      | exponential gamma low high =>
          obtain ⟨hkind, -, hparameters⟩ := hread
          exact ⟨hparts hkind, elim_eq_some_of_none hkind _, hparameters⟩
      | greedy epsilon step =>
          obtain ⟨hkind, -, hparameters⟩ := hread
          exact ⟨hparts hkind, elim_eq_some_of_none hkind _, hparameters⟩

/-! ## Configurations -/

/-- A configuration is read from the settings of its names. -/
theorem config?_eq_some_iff {es : List (String × Setting)} {c : Config} :
    (Setting.table es).config? = some c ↔
      (named? "listen_addr" es).elim (some Config.standard.listenAddress) text? =
        some c.listenAddress ∧
      (named? "spreading_factors" es).elim (some Config.standard.factors) (list? byte?) =
        some c.factors ∧
      (named? "tx_powers_dbm" es).elim (some Config.standard.powers) (list? signedByte?) =
        some c.powers ∧
      (named? "arms" es).elim (some Config.standard.arms) (optional? word?) = some c.arms ∧
      (named? "timeout_ms" es).elim (some Config.standard.timeout) word? = some c.timeout ∧
      (named? "max_devices" es).elim (some Config.standard.maxDevices) word? = some c.maxDevices ∧
      (named? "history_len" es).elim (some Config.standard.historyLength) word? =
        some c.historyLength ∧
      (named? "status_interval_secs" es).elim (some Config.standard.statusInterval) word? =
        some c.statusInterval ∧
      (named? "seed" es).elim (some Config.standard.seed) (optional? word?) = some c.seed ∧
      (named? "log_level" es).elim (some Config.standard.logLevel) text? = some c.logLevel ∧
      (named? "reward" es).elim (some Config.standard.weights) weights? = some c.weights ∧
      (named? "strategy" es).elim (some Config.standard.strategy) strategy? = some c.strategy := by
  simp only [config?, readAt_eq, bind, Option.bind_eq_some_iff, pure, Option.bind_some,
    List.getElem?_cons_zero, Option.join_some, Option.some.injEq]
  constructor
  · rintro ⟨_, h1, _, h2, _, h3, _, h4, _, h5, _, h6, _, h7, _, h8, _, h9, _, h10, _, h11, _, h12,
      rfl⟩
    exact ⟨h1, h2, h3, h4, h5, h6, h7, h8, h9, h10, h11, h12⟩
  · rintro ⟨h1, h2, h3, h4, h5, h6, h7, h8, h9, h10, h11, h12⟩
    exact ⟨_, h1, _, h2, _, h3, _, h4, _, h5, _, h6, _, h7, _, h8, _, h9, _, h10, _, h11, _, h12,
      rfl⟩

end LinkTuner.Setting

import LinkTuner.Controller.Basic
import LinkTuner.Proofs.Policy.Range
import Mathlib.Data.List.Nodup
import Mathlib.Data.List.Perm.Subperm

/-!
# Configurations that a controller starts with

Checking a configuration and building a controller from it look at the same things in another order
and at different places. `Startable` says what they look at: the options, the weights, the number of
devices and the parameters of the strategy. Main statement: the check passes exactly if there is
time for a decision and a controller can be built, whatever the seed.
-/

namespace LinkTuner

/-! ## Steps that can fail -/

section

variable {ε ε' α β : Type} {x : Except ε α}

theorem bind_eq_ok_iff {f : α → Except ε β} {b : β} :
    x >>= f = .ok b ↔ ∃ a, x = .ok a ∧ f a = .ok b := by
  cases x <;> simp [bind, Except.bind]

/-- What comes after a test is reached only if nothing was thrown. -/
theorem unless_eq_ok_iff {p : Prop} [Decidable p] {e : ε} {f : α → Except ε β} {y : Except ε β}
    {b : β} : (if p then throw e >>= f else y) = .ok b ↔ ¬p ∧ y = .ok b := by
  split_ifs with hp
  · simp only [hp, not_true_eq_false, false_and, iff_false]
    exact nofun
  · simp only [hp, not_false_eq_true, true_and]

theorem map_eq_ok_iff {f : α → β} {b : β} : f <$> x = .ok b ↔ ∃ a, x = .ok a ∧ f a = b := by
  cases x <;> simp [Functor.map, Except.map]

theorem mapError_eq_ok_iff {f : ε → ε'} {a : α} : x.mapError f = .ok a ↔ x = .ok a := by
  cases x <;> simp [Except.mapError]

end

/-! ## Options -/

theorem repeatsValue_eq_false_iff {α : Type} [BEq α] [LawfulBEq α] {xs : List α} :
    repeatsValue xs = false ↔ xs.Nodup := by
  induction xs with
  | nil => simp [repeatsValue]
  | cons x xs ih => simp [repeatsValue, ih]

/-- There are no more different options than bytes. -/
theorem length_le_of_bytes {α : Type} {byte : α → UInt8} (hbyte : Function.Injective byte)
    {xs : List α} (h : xs.Nodup) : xs.length ≤ UInt8.size := by
  have hinjective : Function.Injective fun x => (byte x).toNat := fun x y hxy =>
    hbyte (UInt8.toNat_inj.mp hxy)
  have hsubset : xs.map (fun x => (byte x).toNat) ⊆ List.range UInt8.size := by
    intro n hn
    obtain ⟨x, -, rfl⟩ := List.mem_map.mp hn
    exact List.mem_range.mpr (byte x).toNat_lt_size
  simpa using ((List.Nodup.map hinjective h).subperm hsubset).length_le

theorem toUInt8_injective : Function.Injective Int8.toUInt8 := by
  rintro ⟨x⟩ ⟨y⟩ h
  cases h
  rfl

/-- Options without repetitions are never too many. -/
theorem Catalog.ofOptions_eq_ok_iff {factors : List UInt8} {powers : List Int8} {grid : Catalog} :
    ofOptions factors powers = .ok grid ↔
      (factors ≠ [] ∧ powers ≠ []) ∧ (factors.Nodup ∧ powers.Nodup) ∧ grid = ⟨factors, powers⟩ := by
  simp only [ofOptions]
  split_ifs with hempty hrepeats hmany
  · simp only [Bool.or_eq_true, List.isEmpty_iff] at hempty
    simp only [false_iff]
    tauto
  · simp only [Bool.or_eq_true] at hrepeats
    simp only [false_iff, ← repeatsValue_eq_false_iff]
    rcases hrepeats with h | h <;> simp [h]
  · simp only [Bool.not_eq_true, Bool.or_eq_false_iff, repeatsValue_eq_false_iff] at hrepeats
    have hfactors := length_le_of_bytes Function.injective_id hrepeats.1
    have hpowers := length_le_of_bytes toUInt8_injective hrepeats.2
    have hproduct := Nat.mul_le_mul hfactors hpowers
    simp only [UInt8.size, UInt32.size] at hproduct hmany
    omega
  · simp only [Bool.not_eq_true, Bool.or_eq_false_iff, List.isEmpty_eq_false_iff] at hempty
    simp only [Bool.not_eq_true, Bool.or_eq_false_iff, repeatsValue_eq_false_iff] at hrepeats
    simp [hempty, hrepeats, eq_comm]

/-! ## Weights and strategies -/

section

variable {α γ : Type} [Arith α]
open Arith

/-- Weights with which a blend can be made. -/
structure Weights.Blendable (w : Weights α) : Prop where
  finite : (isFinite w.alpha && isFinite w.beta && isFinite w.reference) = true
  not_negative : (lt w.alpha 0 || lt w.beta 0) = false
  not_both_zero : le (w.alpha + w.beta) 0 = false
  reference : le w.reference 0 = false

theorem Weights.check_eq_ok_iff {w : Weights α} : w.check = .ok () ↔ w.Blendable := by
  constructor
  · intro h
    unfold check at h
    split_ifs at h with hblend hzero hreference
    simp only [Bool.or_eq_true, Bool.not_eq_true', not_or, Bool.not_eq_false,
      Bool.not_eq_true] at hblend hzero hreference
    obtain ⟨⟨⟨halpha, hbeta⟩, hnotAlpha⟩, hnotBeta⟩ := hblend
    constructor <;> simp [*]
  · rintro ⟨hfinite, hsign, hzero, hreference⟩
    simp only [Bool.and_eq_true, Bool.or_eq_false_iff] at hfinite hsign
    simp [check, hfinite, hsign, hzero, hreference]

/-- Parameters with which a strategy can be built. Reward bounds that are left out are those of the
blend. -/
def Strategy.Admissible (weights : Weights α) : Strategy α → Prop
  | .exponential gamma low high =>
    (lt 0 gamma && le gamma 1) = true ∧
      (isFinite (low.getD weights.range.1) && isFinite (high.getD weights.range.2)) = true ∧
      le (high.getD weights.range.2) (low.getD weights.range.1) = false
  | .greedy epsilon step =>
    (le 0 epsilon && le epsilon 1) = true ∧ ∀ s, step = some s → (lt 0 s && le s 1) = true

/-- The parameters alone decide whether there is a policy, not the source of chance. -/
theorem Policy.exists_create_iff {arms : Nat} {strategy : Strategy α} {weights : Weights α}
    {source : γ} :
    (∃ p : Policy α γ, create arms strategy weights source = .ok p) ↔
      arms ≠ 0 ∧ strategy.Admissible weights := by
  cases strategy with
  | exponential gamma low high =>
      simp [create_eq_ok_iff, Exponential.create_eq_ok_iff, Strategy.Admissible]
  | greedy epsilon step =>
      simp [create_eq_ok_iff, Greedy.create_eq_ok_iff, Strategy.Admissible]

end

/-! ## The configuration as a whole -/

namespace Config

/-- Options that make a catalog of the expected size. -/
structure Gridded (c : Config) : Prop where
  not_empty : c.factors ≠ [] ∧ c.powers ≠ []
  nodup : c.factors.Nodup ∧ c.powers.Nodup
  arms_eq {arms : UInt64} : c.arms = some arms → arms.toNat = c.factors.length * c.powers.length

/-- All that a controller needs to start. -/
structure Startable (c : Config) : Prop where
  gridded : c.Gridded
  weights : c.weights.Blendable
  devices : c.maxDevices ≠ 0
  strategy : c.strategy.Admissible c.weights

variable {c : Config} {grid : Catalog}

/-- The seed is nothing that a start depends on. -/
theorem startable_with_seed {seed : Option UInt64} :
    Startable { c with seed } ↔ c.Startable := by
  constructor
  · rintro ⟨⟨hempty, hnodup, harms⟩, hweights, hdevices, hstrategy⟩
    exact ⟨⟨hempty, hnodup, harms⟩, hweights, hdevices, hstrategy⟩
  · rintro ⟨⟨hempty, hnodup, harms⟩, hweights, hdevices, hstrategy⟩
    exact ⟨⟨hempty, hnodup, harms⟩, hweights, hdevices, hstrategy⟩

theorem catalog_eq_ok_iff : c.catalog = .ok grid ↔ c.Gridded ∧ grid = ⟨c.factors, c.powers⟩ := by
  simp only [catalog, bind_eq_ok_iff, mapError_eq_ok_iff, Catalog.ofOptions_eq_ok_iff]
  constructor
  · rintro ⟨built, ⟨hempty, hnodup, rfl⟩, harms⟩
    cases hconfigured : c.arms with
    | none =>
        rw [hconfigured] at harms
        cases harms
        exact ⟨⟨hempty, hnodup, fun h => by rw [hconfigured] at h; cases h⟩, rfl⟩
    | some arms =>
        rw [hconfigured] at harms
        dsimp only at harms
        split_ifs at harms with heq
        cases harms
        refine ⟨⟨hempty, hnodup, fun h => ?_⟩, rfl⟩
        rw [hconfigured] at h
        cases h
        exact heq
  · rintro ⟨hgridded, rfl⟩
    refine ⟨_, ⟨hgridded.not_empty, hgridded.nodup, rfl⟩, ?_⟩
    cases hconfigured : c.arms with
    | none => rfl
    | some arms => exact if_pos (hgridded.arms_eq hconfigured)

theorem Gridded.size_ne_zero (h : c.Gridded) : Catalog.size ⟨c.factors, c.powers⟩ ≠ 0 := by
  obtain ⟨hfactors, hpowers⟩ := h.not_empty
  exact Nat.mul_ne_zero (mt List.length_eq_zero_iff.mp hfactors)
    (mt List.length_eq_zero_iff.mp hpowers)

theorem exists_policy_iff {γ : Type} (source : γ) (hgridded : c.Gridded) :
    (∃ p, c.policy ⟨c.factors, c.powers⟩ source = .ok p) ↔ c.strategy.Admissible c.weights := by
  simp only [policy, mapError_eq_ok_iff, Policy.exists_create_iff]
  exact and_iff_right hgridded.size_ne_zero

/-- The check asks for time and for all that a controller needs. -/
theorem check_eq_ok_iff : c.check = .ok () ↔ c.timeout ≠ 0 ∧ c.Startable := by
  simp only [check, discard, bind_eq_ok_iff, unless_eq_ok_iff, mapError_eq_ok_iff,
    catalog_eq_ok_iff]
  constructor
  · rintro ⟨_, ⟨hgridded, rfl⟩, _, hweights, htime, hdevices, hpolicy⟩
    obtain ⟨p, hp, -⟩ := map_eq_ok_iff.mp hpolicy
    exact ⟨htime, hgridded, Weights.check_eq_ok_iff.mp hweights, hdevices,
      (exists_policy_iff () hgridded).mp ⟨p, hp⟩⟩
  · rintro ⟨htime, hgridded, hweights, hdevices, hstrategy⟩
    obtain ⟨p, hp⟩ := (exists_policy_iff () hgridded).mpr hstrategy
    exact ⟨_, ⟨hgridded, rfl⟩, (), Weights.check_eq_ok_iff.mpr hweights, htime, hdevices,
      map_eq_ok_iff.mpr ⟨p, hp, rfl⟩⟩

end Config

namespace Controller

open Config

theorem exists_ofPolicy_iff {P : Type} [Learner P] {config : Config} {policy : P} :
    (∃ c, ofPolicy config policy = .ok c) ↔
      config.Gridded ∧ Learner.arms policy = config.factors.length * config.powers.length ∧
        config.maxDevices ≠ 0 ∧ config.weights.Blendable := by
  simp only [ofPolicy, bind_eq_ok_iff, unless_eq_ok_iff, mapError_eq_ok_iff, catalog_eq_ok_iff,
    not_not]
  constructor
  · rintro ⟨_, _, ⟨hgridded, rfl⟩, harms, hdevices, _, hweights, -⟩
    exact ⟨hgridded, harms, hdevices, Weights.check_eq_ok_iff.mp hweights⟩
  · rintro ⟨hgridded, harms, hdevices, hweights⟩
    exact ⟨_, _, ⟨hgridded, rfl⟩, harms, hdevices, (), Weights.check_eq_ok_iff.mpr hweights, rfl⟩

/-- Building the policy of the strategy first asks for nothing more: it has as many arms as the
catalog has actions. -/
theorem exists_ofConfig_iff {config : Config} {entropy : Random.Gen} :
    (∃ started, ofConfig config entropy = .ok started) ↔ config.Startable := by
  simp only [ofConfig, bind_eq_ok_iff, catalog_eq_ok_iff]
  constructor
  · rintro ⟨_, _, ⟨hgridded, rfl⟩, p, hp, c, hc, -⟩
    obtain ⟨-, -, hdevices, hweights⟩ := exists_ofPolicy_iff.mp ⟨c, hc⟩
    exact ⟨hgridded, hweights, hdevices, (exists_policy_iff _ hgridded).mp ⟨p, hp⟩⟩
  · rintro ⟨hgridded, hweights, hdevices, hstrategy⟩
    obtain ⟨p, hp⟩ := (exists_policy_iff (config.generator entropy) hgridded).mpr hstrategy
    have harms : Learner.arms p = config.factors.length * config.powers.length :=
      (Policy.over_create (mapError_eq_ok_iff.mp hp)).arms_eq
    obtain ⟨c, hc⟩ := exists_ofPolicy_iff.mpr ⟨hgridded, harms, hdevices, hweights⟩
    exact ⟨_, _, ⟨hgridded, rfl⟩, p, hp, c, hc, rfl⟩

end Controller

/-- A configuration passes the check if and only if it leaves time for a decision and a controller
can be built from it, with its own seed or any other or, without a seed, with whatever generator was
drawn, and that is if and only if it is startable. So no configuration that was accepted fails
later, and none with which a controller could start is refused but for its deadline of nothing. -/
theorem check_passes_iff_controller_starts (config : Config) (seed : Option UInt64)
    (entropy : Random.Gen) :
    (config.check = .ok () ↔ config.timeout ≠ 0 ∧
        ∃ started, Controller.ofConfig { config with seed } entropy = .ok started) ∧
      ((∃ started, Controller.ofConfig { config with seed } entropy = .ok started) ↔
        config.Startable) := by
  have hstarts : (∃ started, Controller.ofConfig { config with seed } entropy = .ok started) ↔
      config.Startable := Controller.exists_ofConfig_iff.trans Config.startable_with_seed
  exact ⟨Config.check_eq_ok_iff.trans (and_congr_right fun _ => hstarts.symm), hstarts⟩

end LinkTuner

import LinkTuner.Registry.Index
import Mathlib.Data.Finset.Card
import Mathlib.Data.Set.Card

/-!
# The keys of a finite map

A map that is only written through `insert` and `erase` has every key once. For such a map the
number of pairs is the number of keys that have a value.
-/

namespace LinkTuner.Index

variable {κ ν : Type}

/-- The keys in the order of the pairs. -/
def keys (m : Index κ ν) : List κ := m.pairs.map (·.1)

/-- Every key stands in one pair only. -/
def Distinct (m : Index κ ν) : Prop := m.keys.Nodup

theorem distinct_empty : (empty : Index κ ν).Distinct := List.nodup_nil

@[simp] theorem size_empty : (empty : Index κ ν).size = 0 := rfl

variable [DecidableEq κ]

/-- A key stands in some pair exactly when it has a value. -/
theorem mem_keys_iff (m : Index κ ν) (k : κ) : k ∈ m.keys ↔ (m.find? k).isSome = true := by
  simp [keys, find?, List.find?_isSome]

/-- Where every key stands in one pair only, the value of a key is the one that stands with it. -/
theorem Distinct.find?_of_mem {m : Index κ ν} (hm : m.Distinct) {k : κ} {v : ν}
    (h : (k, v) ∈ m.pairs) : m.find? k = some v := by
  have hk : k ∈ m.keys := List.mem_map_of_mem h
  obtain ⟨v', hv'⟩ := Option.isSome_iff_exists.mp ((mem_keys_iff m k).mp hk)
  obtain ⟨p, hp, rfl⟩ := Option.map_eq_some_iff.mp hv'
  have hname : p.1 = k := by simpa using List.find?_some hp
  have hsame : p = (k, v) := List.inj_on_of_nodup_map hm (List.mem_of_find?_eq_some hp) h hname
  rw [hv', hsame]

theorem keys_erase (m : Index κ ν) (k : κ) : (m.erase k).keys = m.keys.filter (· ≠ k) := by
  simp [keys, erase, List.filter_map, Function.comp_def]

theorem Distinct.erase {m : Index κ ν} (h : m.Distinct) (k : κ) : (m.erase k).Distinct := by
  rw [Distinct, keys_erase]
  exact List.Nodup.filter _ h

theorem Distinct.insert {m : Index κ ν} (h : m.Distinct) (k : κ) (v : ν) :
    (m.insert k v).Distinct := by
  have hk : k ∉ (m.erase k).keys := by simp [mem_keys_iff]
  exact List.nodup_cons.mpr ⟨hk, h.erase k⟩

/-- Erasing a key without a value changes nothing. -/
theorem erase_of_none {m : Index κ ν} {k : κ} (h : m.find? k = none) : m.erase k = m := by
  have hk : ∀ p ∈ m.pairs, p.1 ≠ k := by
    intro p hp heq
    have hmem : k ∈ m.keys := List.mem_map.mpr ⟨p, hp, heq⟩
    simp [mem_keys_iff, h] at hmem
  cases m with
  | mk pairs =>
      simp only [Index.erase, Index.mk.injEq, List.filter_eq_self]
      intro p hp
      simpa using hk p hp

theorem size_insert_of_none {m : Index κ ν} {k : κ} (h : m.find? k = none) (v : ν) :
    (m.insert k v).size = m.size + 1 := by
  simp [insert, size, erase_of_none h]

/-- Erasing a key that has a value removes one pair. -/
theorem Distinct.size_erase {m : Index κ ν} (hm : m.Distinct) {k : κ} {v : ν}
    (h : m.find? k = some v) : (m.erase k).size + 1 = m.size := by
  have hk : k ∈ m.keys := by simp [mem_keys_iff, h]
  have hlen (n : Index κ ν) : n.size = n.keys.length := by simp [size, keys]
  have hfilter : m.keys.filter (· ≠ k) = m.keys.erase k := by
    rw [hm.erase_eq_filter]
    exact List.filter_congr fun x _ => by simp [bne, beq_eq_decide]
  rw [hlen, hlen, keys_erase, hfilter, List.length_erase_of_mem hk]
  have hpos := List.length_pos_of_mem hk
  omega

/-- The number of pairs is the number of keys that have a value. -/
theorem Distinct.ncard_eq_size {m : Index κ ν} (hm : m.Distinct) :
    {k | (m.find? k).isSome = true}.ncard = m.size := by
  have hset : {k | (m.find? k).isSome = true} = (m.keys.toFinset : Set κ) := by
    ext k
    simp [mem_keys_iff]
  rw [hset, Set.ncard_coe_finset, List.toFinset_card_of_nodup hm]
  simp [keys, size]

end LinkTuner.Index

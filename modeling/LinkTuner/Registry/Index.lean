/-!
# Finite maps as lists of pairs

The first pair of a key counts. Writing removes the pairs that a key had, so a map that is only
written through `insert` and `erase` holds every key once.
-/

namespace LinkTuner

/-- A finite map. -/
structure Index (κ ν : Type) where
  pairs : List (κ × ν)
  deriving Repr

namespace Index

variable {κ ν : Type} [DecidableEq κ]

/-- The map of no key. -/
def empty : Index κ ν := ⟨[]⟩

/-- The value of a key. -/
def find? (m : Index κ ν) (k : κ) : Option ν := (m.pairs.find? (·.1 = k)).map (·.2)

/-- The map without a key. -/
def erase (m : Index κ ν) (k : κ) : Index κ ν := ⟨m.pairs.filter (·.1 ≠ k)⟩

/-- The map with a value for a key. -/
def insert (m : Index κ ν) (k : κ) (v : ν) : Index κ ν := ⟨(k, v) :: (m.erase k).pairs⟩

/-- The number of pairs. -/
def size (m : Index κ ν) : Nat := m.pairs.length

@[simp] theorem find?_empty (k : κ) : (empty : Index κ ν).find? k = none := rfl

@[simp] theorem find?_erase_self (m : Index κ ν) (k : κ) : (m.erase k).find? k = none := by
  simp [find?, erase, List.find?_eq_none]

theorem find?_erase_of_ne (m : Index κ ν) {k k' : κ} (h : k' ≠ k) :
    (m.erase k).find? k' = m.find? k' := by
  simp only [find?, erase, List.find?_filter]
  congr 2
  funext p
  by_cases hp : p.1 = k' <;> simp [hp, h]

@[simp] theorem find?_insert_self (m : Index κ ν) (k : κ) (v : ν) :
    (m.insert k v).find? k = some v := by
  simp [find?, insert]

theorem find?_insert_of_ne (m : Index κ ν) {k k' : κ} (v : ν) (h : k' ≠ k) :
    (m.insert k v).find? k' = m.find? k' := by
  rw [← find?_erase_of_ne m h]
  simp [find?, insert, Ne.symm h]

end Index

end LinkTuner

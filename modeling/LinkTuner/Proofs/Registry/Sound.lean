import LinkTuner.Proofs.Registry.Keys
import LinkTuner.Registry.Basic

/-!
# Slots, index and free list in step

The invariant of a registry, and what each operation does to the view `find?` of a registry that
satisfies it. Callers need no more than these lemmas: none of them has to look at a slot again.
-/

namespace LinkTuner.Registry

/-- The index names the occupied slots, the free list the others, and there are never more slots
than the capacity allows. -/
structure Sound (g : Registry) : Prop where
  distinct : g.index.Distinct
  occupied : ∀ {id slot}, g.index.find? id = some slot → ∃ r, g.at? slot = some r ∧ r.id = id
  indexed : ∀ {slot r}, g.at? slot = some r → g.index.find? r.id = some slot
  free_nodup : g.free.Nodup
  mem_free_iff : ∀ slot, slot ∈ g.free ↔ slot < g.slots.length ∧ g.at? slot = none
  count : g.size + g.free.length = g.slots.length
  bounded : g.slots.length ≤ g.capacity

variable {g : Registry}

/-! ## Slots -/

theorem lt_of_at? {slot : Nat} {r : Record} (h : g.at? slot = some r) : slot < g.slots.length := by
  by_contra hlt
  simp [at?, List.getElem?_eq_none (Nat.le_of_not_lt hlt)] at h

/-- Writing a slot is seen in that slot only. -/
theorem at?_set (g' : Registry) {slot : Nat} {x : Option Record}
    (h : g'.slots = g.slots.set slot x) (hlt : slot < g.slots.length) (j : Nat) :
    g'.at? j = if j = slot then x else g.at? j := by
  rw [at?, h]
  by_cases hj : j = slot
  · subst hj
    simp [List.getElem?_set_self hlt]
  · simp [at?, hj, List.getElem?_set_ne (Ne.symm hj)]

/-! ## The view of a sound registry -/

theorem find?_eq_some_iff {id : DeviceId} {r : Record} :
    g.find? id = some r ↔ ∃ slot, g.index.find? id = some slot ∧ g.at? slot = some r := by
  simp [find?, Option.bind_eq_some_iff]

theorem Sound.id_of_find? (hg : g.Sound) {id : DeviceId} {r : Record} (h : g.find? id = some r) :
    r.id = id := by
  obtain ⟨slot, hslot, hat⟩ := find?_eq_some_iff.mp h
  obtain ⟨r', hat', hid⟩ := hg.occupied hslot
  rw [hat] at hat'
  exact Option.some.inj hat' ▸ hid

/-- A device has a record exactly when it is indexed. -/
theorem Sound.isSome_find? (hg : g.Sound) (id : DeviceId) :
    (g.find? id).isSome = (g.index.find? id).isSome := by
  cases hslot : g.index.find? id with
  | none => simp [find?, hslot]
  | some slot =>
      obtain ⟨r, hat, -⟩ := hg.occupied hslot
      simp [find?, hslot, hat]

theorem Sound.index_eq_none (hg : g.Sound) {id : DeviceId} (h : g.find? id = none) :
    g.index.find? id = none := by
  have hsome := hg.isSome_find? id
  simpa [h] using hsome.symm

/-- Distinct devices have distinct slots. -/
theorem Sound.slot_injective (hg : g.Sound) {id id' : DeviceId} {slot : Nat}
    (h : g.index.find? id = some slot) (h' : g.index.find? id' = some slot) : id = id' := by
  obtain ⟨r, hat, hid⟩ := hg.occupied h
  obtain ⟨r', hat', hid'⟩ := hg.occupied h'
  rw [hat] at hat'
  rw [← hid, ← hid', Option.some.inj hat']

/-- The records are those of the view. -/
theorem Sound.mem_records_iff (hg : g.Sound) (r : Record) :
    r ∈ g.records ↔ g.find? r.id = some r := by
  have hslots : r ∈ g.records ↔ ∃ slot, g.at? slot = some r := by
    rw [records, List.mem_filterMap]
    simp [at?, Option.join_eq_some_iff, List.mem_iff_getElem?]
  rw [hslots, find?_eq_some_iff]
  constructor
  · rintro ⟨slot, hat⟩
    exact ⟨slot, hg.indexed hat, hat⟩
  · rintro ⟨slot, -, hat⟩
    exact ⟨slot, hat⟩

/-- The number of indexed devices is the number of devices with a record. -/
theorem Sound.ncard_eq_size (hg : g.Sound) :
    {id | (g.find? id).isSome = true}.ncard = g.size := by
  simp only [hg.isSome_find?]
  exact hg.distinct.ncard_eq_size

theorem Sound.size_eq_zero (hg : g.Sound) (h : ∀ id, g.find? id = none) : g.size = 0 := by
  rw [← hg.ncard_eq_size]
  simp [h]

theorem Sound.size_le (hg : g.Sound) : g.size ≤ g.capacity := by
  have hcount := hg.count
  have hbounded := hg.bounded
  omega

/-- The registry with another record for one device. -/
structure Replaced (g : Registry) (r : Record) (g' : Registry) : Prop where
  sound : g'.Sound
  capacity : g'.capacity = g.capacity
  find?_eq : g'.find? = Function.update g.find? r.id (some r)

theorem Replaced.refl (hg : g.Sound) {r : Record} (h : g.find? r.id = some r) : g.Replaced r g where
  sound := hg
  capacity := rfl
  find?_eq := by rw [← h, Function.update_eq_self]

/-- Of two records for one device the later one counts. -/
theorem Replaced.trans {r r' : Record} {g' g'' : Registry} (h : g.Replaced r g')
    (h' : g'.Replaced r' g'') (hid : r'.id = r.id) : g.Replaced r' g'' where
  sound := h'.sound
  capacity := h'.capacity.trans h.capacity
  find?_eq := by rw [h'.find?_eq, h.find?_eq, hid, Function.update_idem]

theorem Replaced.find?_self {r : Record} {g' : Registry} (h : g.Replaced r g') :
    g'.find? r.id = some r := by
  rw [h.find?_eq, Function.update_self]

theorem Replaced.find?_of_ne {r : Record} {g' : Registry} (h : g.Replaced r g') {id : DeviceId}
    (hne : id ≠ r.id) : g'.find? id = g.find? id := by
  rw [h.find?_eq, Function.update_of_ne hne]

theorem sound_create (capacity : Nat) : (create capacity).Sound where
  distinct := Index.distinct_empty
  occupied h := by simp [create] at h
  indexed h := by simp [create, at?] at h
  free_nodup := List.nodup_nil
  mem_free_iff slot := by simp [create]
  count := rfl
  bounded := Nat.zero_le _

/-! ## Another record for a registered device -/

section Write

variable {id : DeviceId} {r r' : Record}

theorem write_eq {slot : Nat} (h : g.index.find? id = some slot) :
    g.write id r' = { g with slots := g.slots.set slot (some r') } := by
  simp [write, h]

@[simp] theorem capacity_write (g : Registry) (id : DeviceId) (r : Record) :
    (g.write id r).capacity = g.capacity := by
  cases h : g.index.find? id <;> simp [write, h]

theorem Sound.find?_write (hg : g.Sound) (h : g.find? id = some r) (r' : Record) :
    (g.write id r').find? = Function.update g.find? id (some r') := by
  obtain ⟨slot, hslot, hat⟩ := find?_eq_some_iff.mp h
  have hset := at?_set (g.write id r') (congrArg slots (write_eq hslot)) (lt_of_at? hat)
  have hindex : (g.write id r').index = g.index := by rw [write_eq hslot]
  funext id'
  by_cases hid : id' = id
  · subst hid
    simp [find?, hindex, hslot, hset]
  · rw [Function.update_of_ne hid]
    cases h' : g.index.find? id' with
    | none => simp [find?, hindex, h']
    | some slot' =>
        have hne : slot' ≠ slot := by
          rintro rfl
          exact hid (hg.slot_injective h' hslot)
        simp [find?, hindex, h', hset, hne]

theorem Sound.write (hg : g.Sound) (h : g.find? id = some r) (hid : r'.id = id) :
    (g.write id r').Sound := by
  obtain ⟨slot, hslot, hat⟩ := find?_eq_some_iff.mp h
  have hlt := lt_of_at? hat
  have hset := at?_set (g.write id r') (congrArg slots (write_eq hslot)) hlt
  rw [write_eq hslot] at hset ⊢
  refine
    { distinct := hg.distinct
      occupied := ?_
      indexed := ?_
      free_nodup := hg.free_nodup
      mem_free_iff := ?_
      count := by simpa [size] using hg.count
      bounded := by simpa using hg.bounded }
  · intro id' slot' h'
    rw [hset]
    split
    case isTrue heq =>
      exact ⟨r', rfl, by rw [hid, hg.slot_injective hslot (heq ▸ h')]⟩
    case isFalse => exact hg.occupied h'
  · intro slot' r'' h'
    rw [hset] at h'
    split at h'
    case isTrue heq =>
      obtain rfl := Option.some.inj h'
      rw [hid, heq]
      exact hslot
    case isFalse => exact hg.indexed h'
  · intro slot'
    rw [hset, List.length_set, hg.mem_free_iff]
    by_cases heq : slot' = slot
    · subst heq
      simp [hat]
    · simp [heq]

end Write

/-! ## Opening and closing a request -/

section Request

variable {id : DeviceId}

theorem Sound.find?_eq_none_or (hg : g.Sound) (id : DeviceId) :
    g.find? id = none ∨
      (∃ r, g.find? id = some r ∧ r.id = id ∧ r.phase = .idle) ∨
      (∃ r since, g.find? id = some r ∧ r.id = id ∧ r.phase = .awaiting since) := by
  cases h : g.find? id with
  | none => exact .inl rfl
  | some r =>
      have hid := hg.id_of_find? h
      cases hphase : r.phase with
      | idle => exact .inr (.inl ⟨r, rfl, hid, hphase⟩)
      | awaiting since => exact .inr (.inr ⟨r, since, rfl, hid, hphase⟩)

theorem Sound.replaced (hg : g.Sound) {r r' : Record} (h : g.find? r.id = some r') :
    g.Replaced r (g.write r.id r) where
  sound := hg.write h rfl
  capacity := capacity_write g r.id r
  find?_eq := hg.find?_write h r

/-- A request is opened for a registered device that is idle. -/
theorem Sound.markPending_cases (hg : g.Sound) (id : DeviceId) (now : Time) :
    (g.find? id = none ∧ g.markPending id now = .error (.unknown id)) ∨
    (∃ r since, g.find? id = some r ∧ r.id = id ∧ r.phase = .awaiting since ∧
      g.markPending id now = .error (.alreadyPending id)) ∨
    (∃ r g', g.find? id = some r ∧ r.id = id ∧ r.phase = .idle ∧
      g.markPending id now = .ok g' ∧ g.Replaced { r with phase := .awaiting now } g') := by
  obtain h | ⟨r, h, rfl, hphase⟩ | ⟨r, since, h, rfl, hphase⟩ := hg.find?_eq_none_or id
  · exact .inl ⟨h, by simp [markPending, h]⟩
  · refine .inr (.inr ⟨r, _, h, rfl, hphase, ?_, hg.replaced h⟩)
    simp [markPending, h, Record.isPending, hphase]
  · refine .inr (.inl ⟨r, since, h, rfl, hphase, ?_⟩)
    simp [markPending, h, Record.isPending, hphase]

theorem Sound.resolve_cases (hg : g.Sound) (id : DeviceId) :
    (g.find? id = none ∧ g.resolve id = .error (.unknown id)) ∨
    (∃ r, g.find? id = some r ∧ r.phase = .idle ∧ g.resolve id = .error (.noRequest id)) ∨
    (∃ r since, g.find? id = some r ∧ r.phase = .awaiting since ∧
      g.resolve id = .ok r.action) := by
  obtain h | ⟨r, h, -, hphase⟩ | ⟨r, since, h, -, hphase⟩ := hg.find?_eq_none_or id
  · exact .inl ⟨h, by simp [resolve, h]⟩
  · exact .inr (.inl ⟨r, h, hphase, by simp [resolve, h, Record.isPending, hphase]⟩)
  · exact .inr (.inr ⟨r, since, h, hphase, by simp [resolve, h, Record.isPending, hphase]⟩)

/-- A request is closed for a registered device that awaits a response. -/
theorem Sound.complete_cases (hg : g.Sound) (id : DeviceId) (action : ActionId)
    (reward : Option Float) (how : Completion) :
    (g.find? id = none ∧ g.complete id action reward how = .error (.unknown id)) ∨
    (∃ r, g.find? id = some r ∧ r.id = id ∧ r.phase = .idle ∧
      g.complete id action reward how = .error (.noRequest id)) ∨
    (∃ r since g', g.find? id = some r ∧ r.id = id ∧ r.phase = .awaiting since ∧
      g.complete id action reward how = .ok g' ∧
      g.Replaced (closed r action reward how) g') := by
  obtain h | ⟨r, h, rfl, hphase⟩ | ⟨r, since, h, rfl, hphase⟩ := hg.find?_eq_none_or id
  · exact .inl ⟨h, by simp [complete, h]⟩
  · refine .inr (.inl ⟨r, h, rfl, hphase, ?_⟩)
    simp [complete, h, Record.isPending, hphase]
  · have hclosed := hg.replaced (r := closed r action reward how) h
    refine .inr (.inr ⟨r, since, _, h, rfl, hphase, ?_, hclosed⟩)
    simp [complete, h, Record.isPending, hphase]
    rfl

/-- The action of a request that was just opened can be found. -/
theorem Sound.resolve_markPending (hg : g.Sound) {now : Time} {g' : Registry}
    (h : g.markPending id now = .ok g') :
    ∃ r, g.find? id = some r ∧ g'.resolve id = .ok r.action := by
  obtain ⟨-, heq⟩ | ⟨r, since, -, -, -, heq⟩ | ⟨r, g'', hfind, hid, -, heq, hnext⟩ :=
    hg.markPending_cases id now
  · rw [heq] at h
    cases h
  · rw [heq] at h
    cases h
  · rw [heq] at h
    cases h
    have hself : g'.find? id = some _ := hid ▸ hnext.find?_self
    exact ⟨r, hfind, by simp [resolve, hself, Record.isPending]⟩

/-- No request is open exactly when every record is idle. -/
theorem Sound.pendingCount_eq_zero_iff (hg : g.Sound) :
    g.pendingCount = 0 ↔ ∀ id r, g.find? id = some r → r.phase = .idle := by
  have hidle (r : Record) : r.isPending = false ↔ r.phase = .idle := by
    cases hphase : r.phase <;> simp [Record.isPending, hphase]
  simp only [pendingCount, List.countP_eq_zero, hg.mem_records_iff, Bool.not_eq_true, hidle]
  constructor
  · intro h id r hfind
    exact h r (by rw [hg.id_of_find? hfind, hfind])
  · intro h r hfind
    exact h r.id r hfind

end Request

/-! ## A record for a new device -/

section Create

variable {id : DeviceId} {session : SessionId}

/-- What opening a slot gives: the same registry but for a slot that is empty and no longer free. -/
structure Opened (g : Registry) (slot : Nat) (g' : Registry) : Prop where
  index : g'.index = g.index
  capacity : g'.capacity = g.capacity
  at?_eq : ∀ j, g'.at? j = g.at? j
  lt : slot < g'.slots.length
  empty : g.at? slot = none
  free_nodup : g'.free.Nodup
  mem_free_iff : ∀ j, j ∈ g'.free ↔ j ≠ slot ∧ j < g'.slots.length ∧ g'.at? j = none
  count : g'.size + g'.free.length + 1 = g'.slots.length
  bounded : g'.slots.length ≤ g'.capacity

/-- No slot can be opened exactly when as many devices are registered as the capacity allows: freed
slots are not counted as devices. -/
theorem Sound.openSlot_eq_none_iff (hg : g.Sound) : g.openSlot = none ↔ g.size = g.capacity := by
  have hcount := hg.count
  have hbounded := hg.bounded
  cases hfree : g.free with
  | nil =>
      simp only [hfree, List.length_nil] at hcount
      simp only [openSlot, hfree, ite_eq_right_iff, reduceCtorEq, imp_false]
      omega
  | cons slot free =>
      simp only [hfree, List.length_cons] at hcount
      simp only [openSlot, hfree, reduceCtorEq, false_iff]
      omega

theorem Sound.opened (hg : g.Sound) {slot : Nat} {g' : Registry}
    (h : g.openSlot = some (slot, g')) : g.Opened slot g' := by
  have hcount := hg.count
  have hmem := hg.mem_free_iff
  have hnodup := hg.free_nodup
  cases hfree : g.free with
  | nil =>
      simp only [openSlot, hfree, Option.ite_none_right_eq_some, Option.some.injEq,
        Prod.mk.injEq] at h
      obtain ⟨hroom, rfl, rfl⟩ := h
      simp only [hfree, List.length_nil] at hcount
      have hat (j : Nat) : at? { g with slots := g.slots ++ [none] } j = g.at? j := by
        simp only [at?]
        by_cases hj : j < g.slots.length
        · rw [List.getElem?_append_left hj]
        · rw [List.getElem?_append_right (by omega), List.getElem?_eq_none (Nat.le_of_not_lt hj)]
          cases j - g.slots.length <;> rfl
      refine
        { index := rfl
          capacity := rfl
          at?_eq := hat
          lt := by simp
          empty := by simp [at?]
          free_nodup := by simp
          mem_free_iff := ?_
          count := by simpa [size] using hcount
          bounded := by simpa using hroom }
      intro j
      have hj := hmem j
      simp only [hfree, List.not_mem_nil, false_iff, not_and] at hj
      simp only [List.not_mem_nil, List.length_append, List.length_singleton, false_iff, not_and]
      intro hne hlt hnone
      exact hj (by omega) ((hat j).symm.trans hnone)
  | cons slot' free =>
      simp only [openSlot, hfree, Option.some.injEq, Prod.mk.injEq] at h
      obtain ⟨rfl, rfl⟩ := h
      simp only [hfree, List.length_cons] at hcount
      obtain ⟨hnot, hrest⟩ := List.nodup_cons.mp (hfree ▸ hnodup)
      obtain ⟨hlt, hempty⟩ := (hmem slot').mp (by simp [hfree])
      refine
        { index := rfl
          capacity := rfl
          at?_eq := fun _ => rfl
          lt := hlt
          empty := hempty
          free_nodup := hrest
          mem_free_iff := ?_
          count := by simpa [size, Nat.add_assoc] using hcount
          bounded := hg.bounded }
      intro j
      have hj := hmem j
      rw [hfree, List.mem_cons] at hj
      change j ∈ free ↔ j ≠ slot' ∧ j < g.slots.length ∧ g.at? j = none
      rw [← hj]
      constructor
      · intro h
        refine ⟨?_, Or.inr h⟩
        rintro rfl
        exact hnot h
      · rintro ⟨hne, h | h⟩
        · exact absurd h hne
        · exact h

/-- The registry in which an opened slot holds the record of a device that had none. -/
def filled (g : Registry) (slot : Nat) (r : Record) : Registry :=
  { g with
    slots := g.slots.set slot (some r)
    index := g.index.insert r.id slot }

theorem Opened.sound_filled (hg : g.Sound) {slot : Nat} {g' : Registry} {r : Record}
    (h : g.Opened slot g') (hnew : g.find? r.id = none) : (g'.filled slot r).Sound := by
  have hset := at?_set (g := g') (g'.filled slot r) rfl h.lt
  have hindex : (g'.filled slot r).index = g.index.insert r.id slot := by
    rw [← h.index]
    rfl
  have hlen : (g'.filled slot r).slots.length = g'.slots.length := List.length_set
  have hfree : (g'.filled slot r).free = g'.free := rfl
  have hnone := hg.index_eq_none hnew
  refine
    { distinct := ?_
      occupied := ?_
      indexed := ?_
      free_nodup := h.free_nodup
      mem_free_iff := ?_
      count := ?_
      bounded := hlen.trans_le h.bounded }
  · rw [hindex]
    exact hg.distinct.insert _ _
  · intro id' slot' h'
    rw [hindex] at h'
    rw [hset, h.at?_eq]
    by_cases hid : id' = r.id
    · subst hid
      rw [Index.find?_insert_self] at h'
      obtain rfl := Option.some.inj h'
      exact ⟨r, by simp⟩
    · rw [Index.find?_insert_of_ne _ _ hid] at h'
      obtain ⟨r', hat, hid'⟩ := hg.occupied h'
      have hne : slot' ≠ slot := by
        rintro rfl
        simp [h.empty] at hat
      exact ⟨r', by simpa [hne] using hat, hid'⟩
  · intro slot' r' h'
    rw [hset, h.at?_eq] at h'
    rw [hindex]
    split at h'
    case isTrue heq =>
      obtain rfl := Option.some.inj h'
      simp [heq]
    case isFalse =>
      have hslot' := hg.indexed h'
      have hne : r'.id ≠ r.id := by
        intro heq
        simp [heq, hnone] at hslot'
      rw [Index.find?_insert_of_ne _ _ hne]
      exact hslot'
  · intro j
    rw [hfree, h.mem_free_iff, hset, hlen]
    by_cases hj : j = slot <;> simp [hj]
  · have hcount := h.count
    rw [size, h.index] at hcount
    rw [size, hindex, Index.size_insert_of_none hnone, hlen, hfree]
    omega

theorem Opened.find?_filled (hg : g.Sound) {slot : Nat} {g' : Registry} {r : Record}
    (h : g.Opened slot g') :
    (g'.filled slot r).find? = Function.update g.find? r.id (some r) := by
  have hset := at?_set (g := g') (g'.filled slot r) rfl h.lt
  have hindex : (g'.filled slot r).index = g.index.insert r.id slot := by
    rw [← h.index]
    rfl
  funext id'
  by_cases hid : id' = r.id
  · subst hid
    simp [find?, hindex, hset]
  · rw [Function.update_of_ne hid, find?, hindex, Index.find?_insert_of_ne _ _ hid, find?]
    cases h' : g.index.find? id' with
    | none => rfl
    | some slot' =>
        obtain ⟨r', hat, -⟩ := hg.occupied h'
        have hne : slot' ≠ slot := by
          rintro rfl
          simp [h.empty] at hat
        simp [hset, h.at?_eq, hne]

/-- A registered device keeps its record. While there is room any other device gets a fresh one,
whatever its slot held before. -/
theorem Sound.findOrCreate_cases (hg : g.Sound) (id : DeviceId) (session : SessionId) :
    (g.find? id = none ∧ g.size = g.capacity ∧
      g.findOrCreate id session = .error (.full g.capacity)) ∨
    (g.find? id = none ∧ g.size ≠ g.capacity ∧
      ∃ g', g.findOrCreate id session = .ok (.fresh id session, g') ∧
        g.Replaced (.fresh id session) g') ∨
    (∃ r, g.find? id = some r ∧ r.id = id ∧ g.findOrCreate id session = .ok (r, g)) := by
  cases h : g.find? id with
  | some r => exact .inr (.inr ⟨r, rfl, hg.id_of_find? h, by simp [findOrCreate, h]⟩)
  | none =>
      cases hslot : g.openSlot with
      | none =>
          have hfull := hg.openSlot_eq_none_iff.mp hslot
          exact .inl ⟨rfl, hfull, by simp [findOrCreate, h, hslot]⟩
      | some p =>
          obtain ⟨slot, g'⟩ := p
          have hroom : g.size ≠ g.capacity := by
            intro hfull
            rw [hg.openSlot_eq_none_iff.mpr hfull] at hslot
            cases hslot
          have hopened := hg.opened hslot
          refine .inr (.inl ⟨rfl, hroom, g'.filled slot (.fresh id session), ?_, ?_⟩)
          · simp only [findOrCreate, h, hslot]
            rfl
          · exact ⟨hopened.sound_filled hg h, hopened.capacity, hopened.find?_filled hg⟩

end Create

/-! ## Eviction -/

section Evict

theorem evict_fst (g : Registry) (id : DeviceId) : (g.evict id).1 = g.find? id := by
  cases h : g.index.find? id <;> simp [evict, find?, h]

@[simp] theorem capacity_evict (g : Registry) (id : DeviceId) :
    (g.evict id).2.capacity = g.capacity := by
  cases h : g.index.find? id <;> simp [evict, h]

theorem evict_snd {id : DeviceId} {slot : Nat} (h : g.index.find? id = some slot) :
    (g.evict id).2 =
      { g with
        slots := g.slots.set slot none
        index := g.index.erase id
        free := slot :: g.free } := by
  simp [evict, h]

theorem Sound.evict (hg : g.Sound) (id : DeviceId) : (g.evict id).2.Sound := by
  cases hslot : g.index.find? id with
  | none => simpa [Registry.evict, hslot] using hg
  | some slot =>
      obtain ⟨r, hat, hid⟩ := hg.occupied hslot
      have hlt := lt_of_at? hat
      have heq := evict_snd hslot
      have hset := at?_set ((g.evict id).2) (congrArg slots heq) hlt
      rw [heq] at hset ⊢
      refine
        { distinct := hg.distinct.erase id
          occupied := ?_
          indexed := ?_
          free_nodup := ?_
          mem_free_iff := ?_
          count := ?_
          bounded := by simpa using hg.bounded }
      · intro id' slot' h'
        have hne : id' ≠ id := by
          rintro rfl
          simp at h'
        simp only [Index.find?_erase_of_ne _ hne] at h'
        have hslots : slot' ≠ slot := by
          rintro rfl
          exact hne (hg.slot_injective h' hslot)
        rw [hset, if_neg hslots]
        exact hg.occupied h'
      · intro slot' r' h'
        rw [hset] at h'
        split at h'
        case isTrue => cases h'
        case isFalse hslots =>
          have hindex := hg.indexed h'
          have hne : r'.id ≠ id := by
            rintro heq
            rw [heq, hslot] at hindex
            exact hslots (Option.some.inj hindex).symm
          simp only [Index.find?_erase_of_ne _ hne]
          exact hindex
      · apply List.nodup_cons.mpr
        refine ⟨?_, hg.free_nodup⟩
        intro hmem
        have hempty := ((hg.mem_free_iff slot).mp hmem).2
        rw [hat] at hempty
        cases hempty
      · intro slot'
        rw [hset, List.mem_cons, hg.mem_free_iff, List.length_set]
        by_cases hs : slot' = slot
        · subst hs
          simp [hlt]
        · simp [hs]
      · have hsize := hg.distinct.size_erase hslot
        have hcount := hg.count
        simp only [size, List.length_cons, List.length_set] at hcount ⊢
        omega

theorem Sound.find?_evict (hg : g.Sound) (id : DeviceId) :
    (g.evict id).2.find? = Function.update g.find? id none := by
  cases hslot : g.index.find? id with
  | none =>
      have hnone : g.find? id = none := by simp [find?, hslot]
      simp [Registry.evict, hslot, ← hnone]
  | some slot =>
      obtain ⟨r, hat, -⟩ := hg.occupied hslot
      have heq := evict_snd hslot
      have hset := at?_set ((g.evict id).2) (congrArg slots heq) (lt_of_at? hat)
      have hindex : (g.evict id).2.index = g.index.erase id := by rw [heq]
      funext id'
      by_cases hid : id' = id
      · subst hid
        simp [find?, hindex]
      · rw [Function.update_of_ne hid, find?, hindex, Index.find?_erase_of_ne _ hid, find?]
        cases h' : g.index.find? id' with
        | none => rfl
        | some slot' =>
            have hne : slot' ≠ slot := by
              rintro rfl
              exact hid (hg.slot_injective h' hslot)
            simp [hset, hne]

/-- The registry without each device of a list. -/
def evictAll (g : Registry) (ids : List DeviceId) : Registry :=
  ids.foldl (fun g id => (g.evict id).2) g

theorem evictSession_eq (g : Registry) (session : SessionId) :
    g.evictSession session = (g.ownedBy session, g.evictAll (g.ownedBy session)) := rfl

theorem Sound.evictAll (hg : g.Sound) (ids : List DeviceId) : (g.evictAll ids).Sound := by
  induction ids generalizing g with
  | nil => exact hg
  | cons id rest ih => exact ih (hg.evict id)

@[simp] theorem capacity_evictAll (g : Registry) (ids : List DeviceId) :
    (g.evictAll ids).capacity = g.capacity := by
  induction ids generalizing g with
  | nil => rfl
  | cons id rest ih => exact (ih _).trans (capacity_evict g id)

theorem Sound.find?_evictAll (hg : g.Sound) (ids : List DeviceId) (id : DeviceId) :
    (g.evictAll ids).find? id = if id ∈ ids then none else g.find? id := by
  induction ids generalizing g with
  | nil => rfl
  | cons first rest ih =>
      change ((g.evict first).2.evictAll rest).find? id = _
      rw [ih (hg.evict first), hg.find?_evict]
      by_cases hid : id = first <;> simp [hid]

/-- The devices of a session are those whose records have it. -/
theorem Sound.mem_ownedBy_iff (hg : g.Sound) (session : SessionId) (id : DeviceId) :
    id ∈ g.ownedBy session ↔ ∃ r, g.find? id = some r ∧ r.session = session := by
  simp only [ownedBy, List.mem_map, List.mem_filter, hg.mem_records_iff, decide_eq_true_eq]
  constructor
  · rintro ⟨r, ⟨hr, hs⟩, rfl⟩
    exact ⟨r, hr, hs⟩
  · rintro ⟨r, hr, hs⟩
    have hid := hg.id_of_find? hr
    exact ⟨r, ⟨by rw [hid, hr], hs⟩, hid⟩

/-- No device has two records. -/
theorem Sound.nodup_ids (hg : g.Sound) : (g.records.map (·.id)).Nodup := by
  rw [records, List.map_filterMap, List.Nodup, List.pairwise_filterMap]
  apply List.pairwise_iff_getElem.mpr
  intro i j hi hj hij a ha b hb hab
  obtain ⟨r, hr, rfl⟩ := Option.map_eq_some_iff.mp ha
  obtain ⟨r', hr', rfl⟩ := Option.map_eq_some_iff.mp hb
  have hi' : g.at? i = some r := by simpa [at?, List.getElem?_eq_getElem hi] using hr
  have hj' : g.at? j = some r' := by simpa [at?, List.getElem?_eq_getElem hj] using hr'
  have hslot := hg.indexed hi'
  rw [hab, hg.indexed hj'] at hslot
  exact hij.ne (Option.some.inj hslot).symm

theorem Sound.nodup_ownedBy (hg : g.Sound) (session : SessionId) :
    (g.ownedBy session).Nodup :=
  hg.nodup_ids.sublist (List.filter_sublist.map _)

/-- Closing a session keeps exactly the records of the other sessions. -/
theorem Sound.find?_evictSession (hg : g.Sound) (session : SessionId) (id : DeviceId) :
    (g.evictSession session).2.find? id =
      (g.find? id).filter fun r => r.session ≠ session := by
  rw [evictSession_eq, hg.find?_evictAll]
  simp only [hg.mem_ownedBy_iff]
  cases h : g.find? id with
  | none => simp
  | some r => by_cases hs : r.session = session <;> simp [hs, Option.filter]

theorem Sound.evictSession (hg : g.Sound) (session : SessionId) :
    (g.evictSession session).2.Sound := by
  rw [evictSession_eq]
  exact hg.evictAll _

end Evict

end LinkTuner.Registry

import LinkTuner.Proofs.Registry.BoundedMap

/-!
# No slot is missing or empty

The operations of a registry once more, access by access: they stop where a slot is accessed that
was never opened, and where the index names an empty slot for a device. Main statement: in every
registry that operations make of an empty one, slots, index and free list are in step. So no
operation stops there, and each gives what it gives without these checks.
-/

namespace LinkTuner.Registry

/-- What stops an operation. -/
inductive Mishap where
  /-- A slot is accessed that was never opened. -/
  | beyond (slot : Nat)
  /-- The index names an empty slot for a device. -/
  | vacant (id : DeviceId)
  deriving DecidableEq, Repr

/-! ## Operations, access by access -/

section

variable (g : Registry)

/-- What a slot holds. -/
def read (slot : Nat) : Except Mishap (Option Record) :=
  match g.slots[slot]? with
  | none => .error (.beyond slot)
  | some content => .ok content

/-- The registry with another content of a slot. -/
def put (slot : Nat) (content : Option Record) : Except Mishap Registry :=
  if slot < g.slots.length then .ok { g with slots := g.slots.set slot content }
  else .error (.beyond slot)

/-- The slot of a device and its record, if the device is indexed. -/
def locate (id : DeviceId) : Except Mishap (Option (Nat × Record)) :=
  match g.index.find? id with
  | none => return none
  | some slot => do
    match ← g.read slot with
    | none => throw (.vacant id)
    | some r => return some (slot, r)

/-- The record of a device. -/
def look (id : DeviceId) : Except Mishap (Option Record) := return (← g.locate id).map (·.2)

/-- The record that a slot holds, made anew for a device if it holds none. -/
def recordIn (slot : Nat) (id : DeviceId) (session : SessionId) :
    Except Mishap (Record × Registry) := do
  match ← g.read slot with
  | some r => return (r, g)
  | none =>
    let r := Record.fresh id session
    return (r, ← g.put slot (some r))

/-- The record of a device with the slot it is in, made anew for the session if there was none. -/
def enterSlot (id : DeviceId) (session : SessionId) :
    Except Mishap (Except RegistryFault (Nat × Record × Registry)) := do
  match ← g.locate id with
  | some (slot, _) => return .ok (slot, ← g.recordIn slot id session)
  | none =>
    match g.openSlot with
    | none => return .error (.full g.capacity)
    | some (slot, g') =>
      return .ok (slot, ← { g' with index := g'.index.insert id slot }.recordIn slot id session)

/-- Entering a device and changing its record in place, all but the name. -/
def changeSlot (id : DeviceId) (session : SessionId) (f : Record → Record) :
    Except Mishap (Reply × Registry) := do
  match ← g.enterSlot id session with
  | .error fault => return (.refused fault, g)
  | .ok (slot, r, g') =>
    let r' := { f r with id := r.id }
    return (.record r', ← g'.put slot (some r'))

/-- Opening a request. -/
def markSlot (id : DeviceId) (now : Time) : Except Mishap (Except RegistryFault Registry) := do
  match ← g.locate id with
  | none => return .error (.unknown id)
  | some (slot, r) =>
    if r.isPending then return .error (.alreadyPending id)
    else return .ok (← g.put slot (some { r with phase := .awaiting now }))

/-- The action whose outcome the open request reports. -/
def resolveSlot (id : DeviceId) : Except Mishap (Except RegistryFault (Option ActionId)) := do
  match ← g.look id with
  | none => return .error (.unknown id)
  | some r => return if r.isPending then .ok r.action else .error (.noRequest id)

/-- Closing a request with the action that is sent back. -/
def completeSlot (id : DeviceId) (action : ActionId) (reward : Option Float) (how : Completion) :
    Except Mishap (Except RegistryFault Registry) := do
  match ← g.locate id with
  | none => return .error (.unknown id)
  | some (slot, r) =>
    if r.isPending then return .ok (← g.put slot (some (closed r action reward how)))
    else return .error (.noRequest id)

/-- The registry without a device, and what its slot held. -/
def evictSlot (id : DeviceId) : Except Mishap (Option Record × Registry) := do
  match g.index.find? id with
  | none => return (none, g)
  | some slot =>
    let content ← g.read slot
    let g' ← { g with index := g.index.erase id }.put slot none
    return (content, { g' with free := slot :: g'.free })

/-- The registry without each device of a list, one after another. -/
def evictSlots (ids : List DeviceId) : Except Mishap Registry :=
  ids.foldlM (fun g id => return (← g.evictSlot id).2) g

/-- One request: the answer, and the registry afterwards. -/
def serveSlots : Request → Except Mishap (Reply × Registry)
  | .enter id session =>
    return g.settle (fun (_, r, g') => (.record r, g')) (← g.enterSlot id session)
  | .move id session target => g.changeSlot id session ({ · with session := target })
  | .mark id now => return g.settle (fun g' => (.done, g')) (← g.markSlot id now)
  | .resolve id => return g.settle (fun a => (.action a, g)) (← g.resolveSlot id)
  | .complete id action reward how =>
    return g.settle (fun g' => (.done, g')) (← g.completeSlot id action reward how)
  | .evict id => do
    let (removed, g') ← g.evictSlot id
    return (.removed removed, g')
  | .evictSession session => do
    let owned := g.ownedBy session
    return (.devices owned, ← g.evictSlots owned)

/-- What a registry is used for. -/
inductive Operation where
  | request (q : Request)
  /-- Entering a device, then changing its record, all but the name. -/
  | change (id : DeviceId) (session : SessionId) (f : Record → Record)

/-- One operation: the answer, and the registry afterwards. -/
def operate : Operation → Reply × Registry
  | .request q => g.serve q
  | .change id session f =>
    g.settle (fun (r, g') =>
      let r' := { f r with id := r.id }
      (.record r', g'.write r.id r')) (g.findOrCreate id session)

/-- One operation, access by access. -/
def operateSlots : Operation → Except Mishap (Reply × Registry)
  | .request q => g.serveSlots q
  | .change id session f => g.changeSlot id session f

end

/-- The registry that operations make of an empty one. -/
def after (capacity : Nat) (ops : List Operation) : Registry :=
  ops.foldl (fun g op => (g.operate op).2) (create capacity)

variable {g : Registry}

/-! ## A sound registry does not stop -/

/-- An access that did not stop is gone on from. -/
theorem ok_bind {α β : Type} (a : α) (f : α → Except Mishap β) : (Except.ok a >>= f) = f a := rfl

theorem read_of_lt {slot : Nat} (h : slot < g.slots.length) : g.read slot = .ok (g.at? slot) := by
  simp [read, at?, List.getElem?_eq_getElem h]

theorem put_of_lt {slot : Nat} (h : slot < g.slots.length) (content : Option Record) :
    g.put slot content = .ok { g with slots := g.slots.set slot content } := if_pos h

theorem Sound.lt_of_index (hg : g.Sound) {id : DeviceId} {slot : Nat}
    (h : g.index.find? id = some slot) : slot < g.slots.length := by
  obtain ⟨r, hat, -⟩ := hg.occupied h
  exact lt_of_at? hat

/-- Writing the record of a device is writing its slot. -/
theorem Sound.put_eq_write (hg : g.Sound) {id : DeviceId} {slot : Nat}
    (h : g.index.find? id = some slot) (r : Record) :
    g.put slot (some r) = .ok (g.write id r) := by
  rw [put_of_lt (hg.lt_of_index h), write_eq h]

/-- A device that is indexed has a record in its slot. -/
theorem Sound.locate_cases (hg : g.Sound) (id : DeviceId) :
    (g.find? id = none ∧ g.locate id = .ok none) ∨
    (∃ slot r, g.index.find? id = some slot ∧ g.at? slot = some r ∧ g.find? id = some r ∧
      g.locate id = .ok (some (slot, r))) := by
  cases hslot : g.index.find? id with
  | none => exact .inl ⟨by simp [find?, hslot], by simp only [locate, hslot]; rfl⟩
  | some slot =>
      obtain ⟨r, hat, -⟩ := hg.occupied hslot
      refine .inr ⟨slot, r, rfl, hat, by simp [find?, hslot, hat], ?_⟩
      simp only [locate, hslot, read_of_lt (lt_of_at? hat), hat]
      rfl

theorem Sound.look_eq (hg : g.Sound) (id : DeviceId) : g.look id = .ok (g.find? id) := by
  obtain ⟨hfind, hlocate⟩ | ⟨slot, r, -, -, hfind, hlocate⟩ := hg.locate_cases id
  · simp only [look, hlocate, hfind]
    rfl
  · simp only [look, hlocate, hfind]
    rfl

theorem recordIn_of_empty {slot : Nat} (hlt : slot < g.slots.length) (hempty : g.at? slot = none)
    (id : DeviceId) (session : SessionId) :
    g.recordIn slot id session =
      .ok (.fresh id session, { g with slots := g.slots.set slot (some (.fresh id session)) }) := by
  simp only [recordIn, read_of_lt hlt, hempty, ok_bind, put_of_lt hlt]
  rfl

/-- A slot that is opened for a device is there and empty. -/
theorem Opened.recordIn_eq {slot : Nat} {g' : Registry} (h : g.Opened slot g') (id : DeviceId)
    (session : SessionId) :
    { g' with index := g'.index.insert id slot }.recordIn slot id session =
      .ok (.fresh id session, g'.filled slot (.fresh id session)) :=
  recordIn_of_empty (g := { g' with index := g'.index.insert id slot }) h.lt
    ((h.at?_eq slot).trans h.empty) id session

/-- Entering gives the record and the slot it is in, or is refused for want of room. -/
theorem Sound.enterSlot_cases (hg : g.Sound) (id : DeviceId) (session : SessionId) :
    (g.findOrCreate id session = .error (.full g.capacity) ∧
      g.enterSlot id session = .ok (.error (.full g.capacity))) ∨
    (∃ slot r g', g.findOrCreate id session = .ok (r, g') ∧ g'.Sound ∧ g'.find? id = some r ∧
      r.id = id ∧ g'.index.find? id = some slot ∧
      g.enterSlot id session = .ok (.ok (slot, r, g'))) := by
  obtain ⟨hfind, hlocate⟩ | ⟨slot, r, hslot, hat, hfind, hlocate⟩ := hg.locate_cases id
  · cases hopen : g.openSlot with
    | none =>
        refine .inl ⟨by simp only [findOrCreate, hfind, hopen], ?_⟩
        simp only [enterSlot, hlocate, ok_bind, hopen]
        rfl
    | some opened =>
        obtain ⟨slot, g'⟩ := opened
        have hopened := hg.opened hopen
        refine .inr ⟨slot, .fresh id session, g'.filled slot (.fresh id session), ?_,
          hopened.sound_filled hg hfind, ?_, rfl, ?_, ?_⟩
        · simp only [findOrCreate, hfind, hopen]
          rfl
        · rw [hopened.find?_filled hg]
          exact Function.update_self ..
        · exact Index.find?_insert_self ..
        · simp only [enterSlot, hlocate, ok_bind, hopen, hopened.recordIn_eq]
          rfl
  · refine .inr ⟨slot, r, g, by simp only [findOrCreate, hfind], hg, hfind, hg.id_of_find? hfind,
      hslot, ?_⟩
    simp only [enterSlot, hlocate, ok_bind, recordIn, read_of_lt (lt_of_at? hat), hat]
    rfl

theorem Sound.changeSlot_eq (hg : g.Sound) (id : DeviceId) (session : SessionId)
    (f : Record → Record) : g.changeSlot id session f = .ok (g.operate (.change id session f)) := by
  obtain ⟨hfull, henter⟩ | ⟨slot, r, g', hentered, hsound, -, hid, hslot, henter⟩ :=
    hg.enterSlot_cases id session
  · simp only [changeSlot, henter, ok_bind, operate, hfull]
    rfl
  · simp only [changeSlot, henter, ok_bind, hid, hsound.put_eq_write hslot, operate, hentered]
    simp only [settle, hid]
    rfl

theorem Sound.markSlot_eq (hg : g.Sound) (id : DeviceId) (now : Time) :
    g.markSlot id now = .ok (g.markPending id now) := by
  obtain ⟨hfind, hlocate⟩ | ⟨slot, r, hslot, -, hfind, hlocate⟩ := hg.locate_cases id
  · simp only [markSlot, hlocate, ok_bind, markPending, hfind]
    rfl
  · simp only [markSlot, hlocate, ok_bind, hg.put_eq_write hslot, markPending, hfind]
    cases r.isPending <;> rfl

theorem Sound.resolveSlot_eq (hg : g.Sound) (id : DeviceId) :
    g.resolveSlot id = .ok (g.resolve id) := by
  simp only [resolveSlot, hg.look_eq, ok_bind, resolve]
  cases g.find? id <;> rfl

theorem Sound.completeSlot_eq (hg : g.Sound) (id : DeviceId) (action : ActionId)
    (reward : Option Float) (how : Completion) :
    g.completeSlot id action reward how = .ok (g.complete id action reward how) := by
  obtain ⟨hfind, hlocate⟩ | ⟨slot, r, hslot, -, hfind, hlocate⟩ := hg.locate_cases id
  · simp only [completeSlot, hlocate, ok_bind, complete, hfind]
    rfl
  · simp only [completeSlot, hlocate, ok_bind, hg.put_eq_write hslot, complete, hfind]
    cases r.isPending <;> rfl

theorem Sound.evictSlot_eq (hg : g.Sound) (id : DeviceId) :
    g.evictSlot id = .ok (g.evict id) := by
  cases hslot : g.index.find? id with
  | none =>
      simp only [evictSlot, hslot, Registry.evict]
      rfl
  | some slot =>
      have hlt := hg.lt_of_index hslot
      have hput : { g with index := g.index.erase id }.put slot none =
          .ok { g with slots := g.slots.set slot none, index := g.index.erase id } :=
        put_of_lt (g := { g with index := g.index.erase id }) hlt none
      simp only [evictSlot, hslot, read_of_lt hlt, hput, ok_bind, Registry.evict]
      rfl

/-- Evicting the devices of a list, also one that is named again, stops nowhere. -/
theorem Sound.evictSlots_eq (hg : g.Sound) (ids : List DeviceId) :
    g.evictSlots ids = .ok (g.evictAll ids) := by
  induction ids generalizing g with
  | nil => rfl
  | cons id rest ih =>
      have hrest := ih (hg.evict id)
      simp only [evictSlots, List.foldlM_cons, hg.evictSlot_eq, ok_bind] at hrest ⊢
      exact hrest

theorem Sound.serveSlots_eq (hg : g.Sound) (q : Request) : g.serveSlots q = .ok (g.serve q) := by
  cases q with
  | enter id session =>
      obtain ⟨hfull, henter⟩ | ⟨slot, r, g', hentered, -, -, -, -, henter⟩ :=
        hg.enterSlot_cases id session
      · simp only [serveSlots, henter, ok_bind, Registry.serve, hfull]
        rfl
      · simp only [serveSlots, henter, ok_bind, Registry.serve, hentered]
        rfl
  | move id session target => exact hg.changeSlot_eq id session _
  | mark id now =>
      simp only [serveSlots, hg.markSlot_eq, ok_bind]
      rfl
  | resolve id =>
      simp only [serveSlots, hg.resolveSlot_eq, ok_bind]
      rfl
  | complete id action reward how =>
      simp only [serveSlots, hg.completeSlot_eq, ok_bind]
      rfl
  | evict id =>
      simp only [serveSlots, hg.evictSlot_eq, ok_bind]
      rfl
  | evictSession session =>
      simp only [serveSlots, hg.evictSlots_eq, ok_bind]
      rfl

/-- No operation on a sound registry stops. -/
theorem Sound.operateSlots_eq (hg : g.Sound) (op : Operation) :
    g.operateSlots op = .ok (g.operate op) := by
  cases op with
  | request q => exact hg.serveSlots_eq q
  | change id session f => exact hg.changeSlot_eq id session f

/-! ## Any sequence of operations -/

/-- Whatever a record is changed to, it keeps the name it is indexed by. -/
theorem Sound.operate (hg : g.Sound) (op : Operation) :
    (g.operate op).2.Sound ∧ (g.operate op).2.capacity = g.capacity := by
  cases op with
  | request q => exact hg.serve q
  | change id session f =>
      obtain ⟨r, g', hentered, hsound, hcap, hfind, -⟩ | ⟨hfull, -⟩ := hg.entered_cases id session
      · have hchanged := hsound.replaced (r := { f r with id := r.id }) hfind
        simp only [Registry.operate, settle, hentered]
        exact ⟨hchanged.sound, hchanged.capacity.trans hcap⟩
      · simp only [Registry.operate, settle, hfull]
        exact ⟨hg, trivial⟩

theorem sound_after (capacity : Nat) (ops : List Operation) :
    (after capacity ops).Sound ∧ (after capacity ops).capacity = capacity := by
  induction ops using List.reverseRecOn with
  | nil => exact ⟨sound_create capacity, rfl⟩
  | append_singleton ops op ih =>
      obtain ⟨hsound, hcap⟩ := ih.1.operate op
      rw [after, List.foldl_append]
      exact ⟨hsound, hcap.trans ih.2⟩

/-- Slots, index and free list in step. -/
structure InStep (g : Registry) (capacity : Nat) : Prop where
  /-- The index names a slot for a device that holds a record of that device. -/
  occupied : ∀ id slot, (id, slot) ∈ g.index.pairs →
    ∃ r, g.slots[slot]? = some (some r) ∧ r.id = id
  /-- No two devices share a slot. -/
  injective : ∀ id id' slot, (id, slot) ∈ g.index.pairs → (id', slot) ∈ g.index.pairs → id = id'
  /-- Every record is looked up in the slot that holds it. -/
  indexed : ∀ slot r, g.slots[slot]? = some (some r) → g.index.find? r.id = some slot
  free_nodup : g.free.Nodup
  /-- Free are the empty slots and no others. -/
  mem_free_iff : ∀ slot, slot ∈ g.free ↔ g.slots[slot]? = some none
  length_le : g.slots.length ≤ capacity

theorem at?_eq_some_iff {slot : Nat} {r : Record} :
    g.at? slot = some r ↔ g.slots[slot]? = some (some r) := Option.join_eq_some_iff

theorem getElem?_eq_some_none_iff {slot : Nat} :
    g.slots[slot]? = some none ↔ slot < g.slots.length ∧ g.at? slot = none := by
  by_cases hlt : slot < g.slots.length
  · simp [at?, hlt]
  · simp [hlt]

theorem Sound.inStep (hg : g.Sound) : g.InStep g.capacity where
  occupied id slot h := by
    obtain ⟨r, hat, hid⟩ := hg.occupied (hg.distinct.find?_of_mem h)
    exact ⟨r, at?_eq_some_iff.mp hat, hid⟩
  injective _ _ _ h h' :=
    hg.slot_injective (hg.distinct.find?_of_mem h) (hg.distinct.find?_of_mem h')
  indexed _ _ h := hg.indexed (at?_eq_some_iff.mpr h)
  free_nodup := hg.free_nodup
  mem_free_iff slot := (hg.mem_free_iff slot).trans getElem?_eq_some_none_iff.symm
  length_le := hg.bounded

/-- Whatever operations make of an empty registry, its slots, index and free list are in step. A
look at any device and any further operation come to their end access by access, and give what they
give otherwise: no slot is accessed that is not there, and none is empty that the index names. -/
theorem operations_keep_slots_in_step (capacity : Nat) (ops : List Operation) :
    (after capacity ops).InStep capacity ∧
    (∀ id, (after capacity ops).look id = .ok ((after capacity ops).find? id)) ∧
    ∀ op, (after capacity ops).operateSlots op = .ok ((after capacity ops).operate op) := by
  obtain ⟨hsound, hcap⟩ := sound_after capacity ops
  have hstep := hsound.inStep
  rw [hcap] at hstep
  exact ⟨hstep, hsound.look_eq, hsound.operateSlots_eq⟩

end LinkTuner.Registry

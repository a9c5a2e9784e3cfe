import LinkTuner.Proofs.Registry.Sound
import Mathlib.Logic.Function.Basic

/-!
# A registry is a bounded map

`Allows` says what a map from devices to records, with room for a number of devices, answers to a
request and which map it is afterwards. It knows of no slots. A registry answers any sequence of
requests as such a map does, and no other answers are allowed.
-/

namespace LinkTuner.Registry

/-- What callers ask of a registry. -/
inductive Request where
  | enter (id : DeviceId) (session : SessionId)
  /-- Entering the device, then letting the record report through another session. -/
  | move (id : DeviceId) (session target : SessionId)
  | mark (id : DeviceId) (now : Time)
  | resolve (id : DeviceId)
  | complete (id : DeviceId) (action : ActionId) (reward : Option Float) (how : Completion)
  | evict (id : DeviceId)
  | evictSession (session : SessionId)

/-- What a registry answers. -/
inductive Reply where
  | record (r : Record)
  | done
  | action (a : Option ActionId)
  | refused (fault : RegistryFault)
  | removed (r : Option Record)
  | devices (ids : List DeviceId)

/-- The registry after an operation that may be refused, which then leaves it as it was. -/
def settle {α : Type} (g : Registry) (reply : α → Reply × Registry) :
    Except RegistryFault α → Reply × Registry
  | .ok a => reply a
  | .error fault => (.refused fault, g)

/-- One request: the answer, and the registry afterwards. -/
def serve (g : Registry) : Request → Reply × Registry
  | .enter id session => g.settle (fun (r, g') => (.record r, g')) (g.findOrCreate id session)
  | .move id session target =>
    g.settle (fun (r, g') =>
      (.record { r with session := target }, g'.write r.id { r with session := target }))
      (g.findOrCreate id session)
  | .mark id now => g.settle (fun g' => (.done, g')) (g.markPending id now)
  | .resolve id => g.settle (fun a => (.action a, g)) (g.resolve id)
  | .complete id action reward how =>
    g.settle (fun g' => (.done, g')) (g.complete id action reward how)
  | .evict id => ((.removed (g.evict id).1), (g.evict id).2)
  | .evictSession session => (.devices (g.evictSession session).1, (g.evictSession session).2)

/-- A sequence of requests: the answers, and the registry afterwards. -/
def serveAll (g : Registry) : List Request → List Reply × Registry
  | [] => ([], g)
  | q :: rest =>
    let (reply, g') := g.serve q
    let (replies, last) := g'.serveAll rest
    (reply :: replies, last)

/-! ## The map -/

/-- For every device the record it has, if any. -/
abbrev Devices := DeviceId → Option Record

namespace Devices

/-- The number of devices that have a record. -/
noncomputable def count (m : Devices) : Nat := {id | (m id).isSome = true}.ncard

/-- The map with a record for a device. -/
def put (m : Devices) (r : Record) : Devices := Function.update m r.id (some r)

/-- Entering a device. One without a record gets one with nothing but its session, unless as many
devices as there is room for have a record. -/
noncomputable def entered (m : Devices) (capacity : Nat) (id : DeviceId) (session : SessionId) :
    Except RegistryFault (Record × Devices) :=
  match m id with
  | some r => .ok (r, m)
  | none =>
    if m.count = capacity then .error (.full capacity)
    else
      let r : Record :=
        { id, session, action := none, phase := .idle, lastReward := none, decisions := 0,
          fallbacks := 0 }
      .ok (r, m.put r)

/-- What a map with room for `capacity` devices may answer to a request, and the map afterwards. The
devices of a session may be named in any order. -/
def Allows (m : Devices) (capacity : Nat) : Request → Reply → Devices → Prop
  | .enter id session, reply, m' =>
    match m.entered capacity id session with
    | .ok (r, entered) => reply = .record r ∧ m' = entered
    | .error fault => reply = .refused fault ∧ m' = m
  | .move id session target, reply, m' =>
    match m.entered capacity id session with
    | .ok (r, entered) =>
      reply = .record { r with session := target } ∧ m' = entered.put { r with session := target }
    | .error fault => reply = .refused fault ∧ m' = m
  | .mark id now, reply, m' =>
    match m id with
    | none => reply = .refused (.unknown id) ∧ m' = m
    | some r =>
      match r.phase with
      | .awaiting _ => reply = .refused (.alreadyPending id) ∧ m' = m
      | .idle => reply = .done ∧ m' = m.put { r with phase := .awaiting now }
  | .resolve id, reply, m' =>
    match m id with
    | none => reply = .refused (.unknown id) ∧ m' = m
    | some r =>
      match r.phase with
      | .awaiting _ => reply = .action r.action ∧ m' = m
      | .idle => reply = .refused (.noRequest id) ∧ m' = m
  | .complete id action reward how, reply, m' =>
    match m id with
    | none => reply = .refused (.unknown id) ∧ m' = m
    | some r =>
      match r.phase with
      | .awaiting _ =>
        let decided := if how = .decided then 1 else 0
        reply = .done ∧ m' = m.put
          { r with
            phase := .idle
            action := some action
            lastReward := if reward.isSome then reward else r.lastReward
            decisions := r.decisions + decided
            fallbacks := r.fallbacks + (1 - decided) }
      | .idle => reply = .refused (.noRequest id) ∧ m' = m
  | .evict id, reply, m' => reply = .removed (m id) ∧ m' = Function.update m id none
  | .evictSession session, reply, m' =>
    ∃ ids, reply = .devices ids ∧ ids.Nodup ∧
      (∀ id, id ∈ ids ↔ ∃ r, m id = some r ∧ r.session = session) ∧
      m' = fun id => (m id).filter fun r => r.session ≠ session

/-- The answers a map may give to a sequence of requests, and the map at the end. -/
inductive Run (capacity : Nat) : Devices → List Request → List Reply → Devices → Prop where
  | done (m : Devices) : Run capacity m [] [] m
  | step {m m' last : Devices} {q : Request} {reply : Reply} {rest : List Request}
      {replies : List Reply} (h : m.Allows capacity q reply m')
      (tail : Run capacity m' rest replies last) :
      Run capacity m (q :: rest) (reply :: replies) last

end Devices

/-- Two answers that differ at most in the order in which devices are named. -/
inductive Reply.Same : Reply → Reply → Prop where
  | refl (reply : Reply) : Same reply reply
  | devices {ids ids' : List DeviceId} (h : ids.Perm ids') : Same (.devices ids) (.devices ids')

theorem Reply.same_iff_eq {reply reply' : Reply} (h : ∀ ids, reply' ≠ .devices ids) :
    reply.Same reply' ↔ reply = reply' := by
  constructor
  · rintro (_ | _)
    · rfl
    · exact absurd rfl (h _)
  · rintro rfl
    exact .refl _

theorem Reply.same_devices_iff {reply : Reply} {ids : List DeviceId} :
    reply.Same (.devices ids) ↔ ∃ ids', reply = .devices ids' ∧ ids'.Perm ids := by
  constructor
  · rintro (_ | h)
    · exact ⟨ids, rfl, .refl ids⟩
    · exact ⟨_, rfl, h⟩
  · rintro ⟨ids', rfl, h⟩
    exact .devices h

/-! ## One request -/

variable {g : Registry}

theorem Replaced.find?_eq_put {r : Record} {g' : Registry} (h : g.Replaced r g') :
    g'.find? = Devices.put g.find? r := h.find?_eq

/-- The record of a closed request, with every field written out. -/
theorem closed_eq (r : Record) (action : ActionId) (reward : Option Float) (how : Completion) :
    closed r action reward how =
      { r with
        phase := .idle
        action := some action
        lastReward := if reward.isSome then reward else r.lastReward
        decisions := r.decisions + (if how = .decided then 1 else 0)
        fallbacks := r.fallbacks + (1 - (if how = .decided then 1 else 0)) } := by
  cases how <;> cases reward <;> rfl

/-- Entering a device gives the same in the registry and in the map. -/
theorem Sound.entered_cases (hg : g.Sound) (id : DeviceId) (session : SessionId) :
    (∃ r g', g.findOrCreate id session = .ok (r, g') ∧ g'.Sound ∧ g'.capacity = g.capacity ∧
      g'.find? r.id = some r ∧ Devices.entered g.find? g.capacity id session = .ok (r, g'.find?)) ∨
    (g.findOrCreate id session = .error (.full g.capacity) ∧
      Devices.entered g.find? g.capacity id session = .error (.full g.capacity)) := by
  have hcount : Devices.count g.find? = g.size := hg.ncard_eq_size
  obtain ⟨h, hfull, heq⟩ | ⟨h, hroom, g', heq, hnew⟩ | ⟨r, h, rfl, heq⟩ :=
    hg.findOrCreate_cases id session
  · exact .inr ⟨heq, by simp [Devices.entered, h, hcount, hfull]⟩
  · refine .inl ⟨.fresh id session, g', heq, hnew.sound, hnew.capacity, by simp [hnew.find?_eq], ?_⟩
    simp only [Devices.entered, h, hcount, hroom, if_false, hnew.find?_eq_put]
    rfl
  · exact .inl ⟨r, g, heq, hg, rfl, h, by simp [Devices.entered, h]⟩

/-- A request keeps slots, index and free list in step. -/
theorem Sound.serve (hg : g.Sound) (q : Request) :
    (g.serve q).2.Sound ∧ (g.serve q).2.capacity = g.capacity := by
  cases q with
  | enter id session =>
      obtain ⟨r, g', hok, hsound, hcap, -⟩ | ⟨herr, -⟩ := hg.entered_cases id session
      · simpa [Registry.serve, settle, hok] using And.intro hsound hcap
      · simpa [Registry.serve, settle, herr] using hg
  | move id session target =>
      obtain ⟨r, g', hok, hsound, hcap, hfind, -⟩ | ⟨herr, -⟩ := hg.entered_cases id session
      · have hmoved := hsound.replaced (r := { r with session := target }) hfind
        simp only [Registry.serve, settle, hok]
        exact ⟨hmoved.sound, hmoved.capacity.trans hcap⟩
      · simpa [Registry.serve, settle, herr] using hg
  | mark id now =>
      obtain ⟨-, heq⟩ | ⟨r, since, -, -, -, heq⟩ | ⟨r, g', -, -, -, heq, hnew⟩ :=
        hg.markPending_cases id now
      · simpa [Registry.serve, settle, heq] using hg
      · simpa [Registry.serve, settle, heq] using hg
      · simpa [Registry.serve, settle, heq] using And.intro hnew.sound hnew.capacity
  | resolve id => cases h : g.resolve id <;> simpa [Registry.serve, settle, h] using hg
  | complete id action reward how =>
      obtain ⟨-, heq⟩ | ⟨r, -, -, -, heq⟩ | ⟨r, since, g', -, -, -, heq, hnew⟩ :=
        hg.complete_cases id action reward how
      · simpa [Registry.serve, settle, heq] using hg
      · simpa [Registry.serve, settle, heq] using hg
      · simpa [Registry.serve, settle, heq] using And.intro hnew.sound hnew.capacity
  | evict id => exact ⟨hg.evict id, capacity_evict g id⟩
  | evictSession session => exact ⟨hg.evictSession session, capacity_evictAll g _⟩

/-- The map allows what the registry answers, and nothing else. -/
theorem Sound.allows_iff (hg : g.Sound) (q : Request) (reply : Reply) (m : Devices) :
    Devices.Allows g.find? g.capacity q reply m ↔
      reply.Same (g.serve q).1 ∧ m = (g.serve q).2.find? := by
  cases q with
  | enter id session =>
      obtain ⟨r, g', hok, -, -, -, hmap⟩ | ⟨herr, hmap⟩ := hg.entered_cases id session
      · simp [Devices.Allows, hmap, Registry.serve, settle, hok, Reply.same_iff_eq]
      · simp [Devices.Allows, hmap, Registry.serve, settle, herr, Reply.same_iff_eq]
  | move id session target =>
      obtain ⟨r, g', hok, hsound, -, hfind, hmap⟩ | ⟨herr, hmap⟩ := hg.entered_cases id session
      · have hmoved := hsound.replaced (r := { r with session := target }) hfind
        simp [Devices.Allows, hmap, Registry.serve, settle, hok, Reply.same_iff_eq,
          hmoved.find?_eq_put]
      · simp [Devices.Allows, hmap, Registry.serve, settle, herr, Reply.same_iff_eq]
  | mark id now =>
      obtain ⟨h, heq⟩ | ⟨r, since, h, -, hphase, heq⟩ | ⟨r, g', h, -, hphase, heq, hnew⟩ :=
        hg.markPending_cases id now
      · simp [Devices.Allows, h, Registry.serve, settle, heq, Reply.same_iff_eq]
      · simp [Devices.Allows, h, hphase, Registry.serve, settle, heq, Reply.same_iff_eq]
      · simp [Devices.Allows, h, hphase, Registry.serve, settle, heq, Reply.same_iff_eq,
          hnew.find?_eq_put]
  | resolve id =>
      obtain ⟨h, heq⟩ | ⟨r, h, hphase, heq⟩ | ⟨r, since, h, hphase, heq⟩ := hg.resolve_cases id
      · simp [Devices.Allows, h, Registry.serve, settle, heq, Reply.same_iff_eq]
      · simp [Devices.Allows, h, hphase, Registry.serve, settle, heq, Reply.same_iff_eq]
      · simp [Devices.Allows, h, hphase, Registry.serve, settle, heq, Reply.same_iff_eq]
  | complete id action reward how =>
      obtain ⟨h, heq⟩ | ⟨r, h, -, hphase, heq⟩ | ⟨r, since, g', h, -, hphase, heq, hnew⟩ :=
        hg.complete_cases id action reward how
      · simp [Devices.Allows, h, Registry.serve, settle, heq, Reply.same_iff_eq]
      · simp [Devices.Allows, h, hphase, Registry.serve, settle, heq, Reply.same_iff_eq]
      · simp [Devices.Allows, h, hphase, Registry.serve, settle, heq, Reply.same_iff_eq,
          hnew.find?_eq_put, closed_eq]
  | evict id =>
      simp [Devices.Allows, Registry.serve, Reply.same_iff_eq, evict_fst, hg.find?_evict]
  | evictSession session =>
      simp only [Devices.Allows, Registry.serve, Reply.same_devices_iff]
      have hmap : (g.evictSession session).2.find? =
          fun id => (g.find? id).filter fun r => r.session ≠ session :=
        funext (hg.find?_evictSession session)
      rw [hmap]
      constructor
      · rintro ⟨ids, rfl, hnodup, hmem, rfl⟩
        refine ⟨⟨ids, rfl, ?_⟩, rfl⟩
        apply (List.perm_ext_iff_of_nodup hnodup (hg.nodup_ownedBy session)).mpr
        intro id
        rw [hmem, hg.mem_ownedBy_iff]
      · rintro ⟨⟨ids, rfl, hperm⟩, rfl⟩
        refine ⟨ids, rfl, hperm.nodup_iff.mpr (hg.nodup_ownedBy session), ?_, rfl⟩
        intro id
        rw [hperm.mem_iff]
        exact hg.mem_ownedBy_iff session id

/-! ## Any sequence of requests -/

theorem Sound.serveAll (hg : g.Sound) (qs : List Request) :
    (g.serveAll qs).2.Sound ∧ (g.serveAll qs).2.capacity = g.capacity := by
  induction qs generalizing g with
  | nil => exact ⟨hg, rfl⟩
  | cons q rest ih =>
      obtain ⟨hsound, hcap⟩ := hg.serve q
      obtain ⟨hlast, hcaps⟩ := ih hsound
      exact ⟨hlast, hcaps.trans hcap⟩

theorem Sound.run_iff (hg : g.Sound) (qs : List Request) (replies : List Reply) (m : Devices) :
    Devices.Run g.capacity g.find? qs replies m ↔
      List.Forall₂ Reply.Same replies (g.serveAll qs).1 ∧ m = (g.serveAll qs).2.find? := by
  induction qs generalizing g replies with
  | nil =>
      constructor
      · rintro ⟨⟩
        exact ⟨.nil, rfl⟩
      · rintro ⟨hreplies, rfl⟩
        cases hreplies
        exact .done _
  | cons q rest ih =>
      obtain ⟨hsound, hcap⟩ := hg.serve q
      constructor
      · rintro (_ | ⟨h, tail⟩)
        obtain ⟨hsame, rfl⟩ := (hg.allows_iff q _ _).mp h
        rw [← hcap] at tail
        obtain ⟨hrest, rfl⟩ := (ih hsound _).mp tail
        exact ⟨.cons hsame hrest, rfl⟩
      · rintro ⟨hreplies, rfl⟩
        cases hreplies with
        | cons hsame hrest =>
            refine .step ((hg.allows_iff q _ _).mpr ⟨hsame, rfl⟩) ?_
            rw [← hcap]
            exact (ih hsound _).mpr ⟨hrest, rfl⟩

/-- A registry that starts empty answers every sequence of requests as a map from devices to records
does that has room for as many devices as the capacity says, and nothing else may be answered. The
number of registered devices is that of the devices with a record, at most the capacity. -/
theorem serveAll_answers_as_bounded_map (capacity : Nat) (qs : List Request) :
    (∀ replies m, Devices.Run capacity (fun _ => none) qs replies m ↔
      List.Forall₂ Reply.Same replies ((create capacity).serveAll qs).1 ∧
        m = ((create capacity).serveAll qs).2.find?) ∧
    Devices.count ((create capacity).serveAll qs).2.find? =
      ((create capacity).serveAll qs).2.size ∧
    ((create capacity).serveAll qs).2.size ≤ capacity := by
  have hstart := sound_create capacity
  obtain ⟨hsound, hcap⟩ := hstart.serveAll qs
  refine ⟨fun replies m => hstart.run_iff qs replies m, hsound.ncard_eq_size, ?_⟩
  have hle := hsound.size_le
  rw [hcap] at hle
  exact hle

end LinkTuner.Registry

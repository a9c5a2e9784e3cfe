import LinkTuner.Registry.Index
import LinkTuner.Catalog
import LinkTuner.Device

/-!
# The registry of devices

Records lie in slots, an index tells the slot of each device, and slots that became free are used
again, the last one freed first, before a new one is opened. So there are never more slots than the
capacity allows. `find?` is the view of a registry as a map from devices to records.

A device is idle, or awaits the response to its last observation. The response closes the request
and says which action was sent.
-/

namespace LinkTuner

/-- A point in time, in milliseconds after a common origin. -/
abbrev Time := Nat

/-- Where a device is in its cycle of requests. -/
inductive Phase where
  | idle
  | awaiting (since : Time)
  deriving DecidableEq, Repr

/-- What is known of one device. -/
structure Record where
  id : DeviceId
  /-- The session that the device reports through. -/
  session : SessionId
  /-- The action it was sent last. -/
  action : Option ActionId
  phase : Phase
  lastReward : Option Float
  decisions : Nat
  fallbacks : Nat
  deriving Repr

namespace Record

/-- A device that was not seen before. -/
def fresh (id : DeviceId) (session : SessionId) : Record := ⟨id, session, none, .idle, none, 0, 0⟩

/-- Whether a request of the device is open. -/
def isPending (r : Record) : Bool :=
  match r.phase with
  | .idle => false
  | .awaiting _ => true

/-- How long the open request has waited; not less than nothing, whatever the clock says. -/
def pendingFor (r : Record) (now : Time) : Option Time :=
  match r.phase with
  | .idle => none
  | .awaiting since => some (now - since)

end Record

/-- How a request was closed. -/
inductive Completion where
  | decided
  | fallback
  deriving DecidableEq, Repr

/-- Why an operation on a device is refused. -/
inductive RegistryFault where
  | noRequest (id : DeviceId)
  | alreadyPending (id : DeviceId)
  | unknown (id : DeviceId)
  | full (capacity : Nat)
  deriving DecidableEq, Repr

/-- The wording of a refusal. -/
def RegistryFault.message : RegistryFault → String
  | .noRequest id => "no pending request for device " ++ id.text
  | .alreadyPending id => "device " ++ id.text ++ " already has a pending request"
  | .unknown id => "unknown device: " ++ id.text
  | .full capacity => "device registry full (" ++ Decimal.textOfNat capacity ++ " devices)"

/-- Records in slots, with the slot of each device and the slots that are free. -/
structure Registry where
  capacity : Nat
  slots : List (Option Record)
  index : Index DeviceId Nat
  free : List Nat
  deriving Repr

namespace Registry

/-- The registry of no device. -/
def create (capacity : Nat) : Registry := ⟨capacity, [], .empty, []⟩

variable (g : Registry)

/-- The number of registered devices. -/
def size : Nat := g.index.size

/-- Whether no device is registered. -/
def isEmpty : Bool := g.index.pairs.isEmpty

/-- The records of all registered devices, in the order of their slots. -/
def records : List Record := g.slots.filterMap id

/-- The number of open requests. -/
def pendingCount : Nat := g.records.countP Record.isPending

/-- The record in a slot. -/
def at? (slot : Nat) : Option Record := (g.slots[slot]?).join

/-- The record of a device. -/
def find? (id : DeviceId) : Option Record := (g.index.find? id).bind g.at?

/-- The registry with another record in the slot of a device. -/
def write (id : DeviceId) (r : Record) : Registry :=
  match g.index.find? id with
  | some slot => { g with slots := g.slots.set slot (some r) }
  | none => g

/-- A slot for one more device: the one freed last, or else a new one. -/
def openSlot : Option (Nat × Registry) :=
  match g.free with
  | slot :: free => some (slot, { g with free })
  | [] =>
    if g.slots.length < g.capacity then
      some (g.slots.length, { g with slots := g.slots ++ [none] })
    else none

/-- The record of a device, made anew for the session if there was none. -/
def findOrCreate (id : DeviceId) (session : SessionId) :
    Except RegistryFault (Record × Registry) :=
  match g.find? id with
  | some r => .ok (r, g)
  | none =>
    match g.openSlot with
    | none => .error (.full g.capacity)
    | some (slot, g') =>
      let r := Record.fresh id session
      .ok (r, { g' with
        slots := g'.slots.set slot (some r)
        index := g'.index.insert id slot })

/-- Opening a request. -/
def markPending (id : DeviceId) (now : Time) : Except RegistryFault Registry :=
  match g.find? id with
  | none => .error (.unknown id)
  | some r =>
    if r.isPending then .error (.alreadyPending id)
    else .ok (g.write id { r with phase := .awaiting now })

/-- The action whose outcome the open request reports. -/
def resolve (id : DeviceId) : Except RegistryFault (Option ActionId) :=
  match g.find? id with
  | none => .error (.unknown id)
  | some r => if r.isPending then .ok r.action else .error (.noRequest id)

/-- The record of a device whose request is closed with an action. -/
def closed (r : Record) (action : ActionId) (reward : Option Float) (how : Completion) : Record :=
  { r with
    phase := .idle
    action := some action
    lastReward := reward.orElse fun _ => r.lastReward
    decisions := if how = .decided then r.decisions + 1 else r.decisions
    fallbacks := if how = .fallback then r.fallbacks + 1 else r.fallbacks }

/-- Closing a request with the action that is sent back. -/
def complete (id : DeviceId) (action : ActionId) (reward : Option Float) (how : Completion) :
    Except RegistryFault Registry :=
  match g.find? id with
  | none => .error (.unknown id)
  | some r =>
    if r.isPending then .ok (g.write id (closed r action reward how)) else .error (.noRequest id)

/-- The registry without a device, and the record it had. -/
def evict (id : DeviceId) : Option Record × Registry :=
  match g.index.find? id with
  | none => (none, g)
  | some slot =>
    (g.at? slot, { g with
      slots := g.slots.set slot none
      index := g.index.erase id
      free := slot :: g.free })

/-- The devices that report through a session, in the order of their slots. -/
def ownedBy (session : SessionId) : List DeviceId :=
  (g.records.filter (·.session = session)).map (·.id)

/-- The registry without the devices of a session, and which ones they were. -/
def evictSession (session : SessionId) : List DeviceId × Registry :=
  let owned := g.ownedBy session
  (owned, owned.foldl (fun g id => (g.evict id).2) g)

end Registry

end LinkTuner

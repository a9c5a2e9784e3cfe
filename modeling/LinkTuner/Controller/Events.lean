import LinkTuner.Controller.Statistics
import LinkTuner.Json.Value
import LinkTuner.Registry.Basic
import LinkTuner.Wire.Fault

/-!
# What a controller says in the log
-/

namespace LinkTuner.Event

/-- The policy is built. -/
def ready (strategy : String) (arms timeout : Nat) : Event :=
  ⟨.info, "policy engine ready",
    [("strategy", Text.quote strategy), ("arms", Decimal.textOfNat arms),
      ("timeout_ms", Decimal.textOfNat timeout)]⟩

/-- A device reports through another session than before. -/
def moved (device : DeviceId) (source target : SessionId) : Event :=
  ⟨.info, "device moved to reporting session",
    [("device", device.text), ("from", source.display), ("to", target.display)]⟩

/-- Something is wrong with what a device sent. -/
def aboutDevice (level : Level) (message : String) (device : DeviceId) (error : String) : Event :=
  ⟨level, message, [("device", device.text), ("error", error)]⟩

/-- The device says that it applied another action than the one it was sent. -/
def overruled (device : DeviceId) (assigned reported : ActionId) : Event :=
  ⟨.warn, "reported action differs from the assigned one, crediting the assigned action",
    [("device", device.text), ("assigned", assigned.text), ("reported", reported.text)]⟩

/-- No decision was made, so the fallback is sent. -/
def fellBack (level : Level) (device : DeviceId) (error : String) (action : ActionId) : Event :=
  ⟨level, "sending fallback action",
    [("device", device.text), ("error", error), ("fallback", action.text)]⟩

/-- A decision is sent. -/
def decided (device : DeviceId) (action : ActionId) (setting : String) (fallback : Bool) : Event :=
  ⟨.debug, "decision",
    [("device", device.text), ("action", action.text), ("params", setting),
      ("fallback", if fallback then "true" else "false")]⟩

/-- A session ended and its devices are forgotten. -/
def evicted (session : SessionId) (devices : Nat) : Event :=
  ⟨.info, "evicted session devices",
    [("session", session.display), ("devices", Decimal.textOfNat devices)]⟩

/-- A session begins. -/
def opened (session : SessionId) : Event :=
  ⟨.info, "session opened", [("session", session.display)]⟩

/-- The stream of a session ended between two frames. -/
def closed (session : SessionId) : Event :=
  ⟨.info, "session closed by peer", [("session", session.display)]⟩

/-- The stream of a session broke off. -/
def ended (session : SessionId) (fault : Wire.Fault) : Event :=
  ⟨.warn, "session ended",
    [("session", session.display), ("error", "connection error: " ++ fault.message)]⟩

/-- A message that cannot be used is dropped. -/
def dropped (session : SessionId) (fault : Wire.Fault) : Event :=
  ⟨.warn, "message dropped", [("session", session.display), ("error", fault.message)]⟩

/-- What the policy has learnt when it stops. -/
def final (s : Snapshot Float) : Event :=
  let best := match s.best with
    | none => "None"
    | some a => "Some(ActionId(" ++ Decimal.textOfNat a.toNat ++ "))"
  ⟨.info, "final policy state", [("updates", Decimal.textOfNat s.updates), ("best", best)]⟩

/-- The policy had stopped before, so nothing is known of it. -/
def noFinal (error : String) : Event := ⟨.warn, "policy state unavailable", [("error", error)]⟩

/-- What was counted, at the end. -/
def totals (c : Counters) : Event :=
  ⟨.info, "final counters",
    [("stats", (Json.Value.record (c.named.map fun (name, n) => (name, .nat n))).render)]⟩

end LinkTuner.Event

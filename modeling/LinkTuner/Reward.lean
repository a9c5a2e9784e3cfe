import LinkTuner.Arith
import LinkTuner.Decimal.Format
import LinkTuner.Device

/-!
# Rewards

The outcome of a transmission becomes one number, `alpha * delivery - beta * energy / reference`,
together with its parts. Telemetry that is missing or not finite becomes no reward at all; what
takes its place is the neutral reward, which says nothing about the action.
-/

namespace LinkTuner

/-- How delivery and energy are blended. -/
structure Weights (α : Type) where
  alpha : α
  beta : α
  /-- The energy in joules that counts as one. -/
  reference : α
  deriving Repr

/-- Why weights are refused. -/
inductive WeightsFault (α : Type) where
  | notBlendable (alpha beta : α)
  | bothZero
  | reference (value : α)
  deriving Repr

/-- The wording of a refusal. -/
def WeightsFault.message : WeightsFault Float → String
  | .notBlendable alpha beta =>
    "reward weights must be finite and non-negative (alpha=" ++ Decimal.text alpha ++
      ", beta=" ++ Decimal.text beta ++ ")"
  | .bothZero => "reward weights alpha and beta cannot both be zero"
  | .reference value => "energy reference must be positive, got " ++ Decimal.text value

/-- What a device measured after its last transmission, as far as it came through. -/
structure Outcome (α : Type) where
  delivery : Option α
  energy : Option α
  deriving Repr

/-- No telemetry at all. -/
def Outcome.missing {α : Type} : Outcome α := ⟨none, none⟩

/-- Why an outcome is no reward. -/
inductive OutcomeFault (α : Type) where
  | noDelivery
  | noEnergy
  | notFinite (delivery energy : α)
  | noReference
  deriving Repr

/-- The wording of a refusal. -/
def OutcomeFault.message (fault : OutcomeFault Float) : String :=
  "invalid outcome: " ++ match fault with
    | .noDelivery => "missing delivery field"
    | .noEnergy => "missing energy field"
    | .notFinite delivery energy =>
      "non-finite telemetry (delivery=" ++ Decimal.text delivery ++ ", energy=" ++
        Decimal.text energy ++ ")"
    | .noReference => "energy reference is zero, cannot normalize"

/-- What a policy is fed: the blend and its parts. -/
structure Reward (α : Type) where
  value : α
  delivery : α
  energy : α
  /-- Counts as an update but tells nothing about the action. -/
  neutral : Bool
  deriving Repr

/-- One reward with where it came from. -/
structure Sample (α : Type) where
  device : DeviceId
  outcome : Outcome α
  reward : Reward α
  /-- Whether the reward stands in for an outcome that could not be used. -/
  neutral : Bool
  deriving Repr

section

variable {α : Type} [Arith α]
open Arith

/-- The reward that says nothing. -/
def Reward.uninformative : Reward α := ⟨0, 0, 0, true⟩

/-- A reward known only by its value. -/
def Reward.ofValue (value : α) : Reward α := ⟨value, 0, 0, false⟩

namespace Weights

/-- Whether a blend can be made with the weights. -/
def check (w : Weights α) : Except (WeightsFault α) Unit :=
  if !isFinite w.alpha || !isFinite w.beta || lt w.alpha 0 || lt w.beta 0 then
    .error (.notBlendable w.alpha w.beta)
  else if le (w.alpha + w.beta) 0 then .error .bothZero
  else if le w.reference 0 || !isFinite w.reference then .error (.reference w.reference)
  else .ok ()

/-- The blend of telemetry in range lies between these. -/
def range (w : Weights α) : α × α := (-w.beta, w.alpha)

/-- The blend of a delivery ratio and a normalised energy. -/
def blend (w : Weights α) (delivery energy : α) : α := w.alpha * delivery - w.beta * energy

/-- The reward for an outcome. Values out of range are passed on: it is for the policy to bring
them back. -/
def combine (w : Weights α) (o : Outcome α) : Except (OutcomeFault α) (Reward α) :=
  match o.delivery, o.energy with
  | none, _ => .error .noDelivery
  | some _, none => .error .noEnergy
  | some delivery, some joules =>
    if !isFinite delivery || !isFinite joules then .error (.notFinite delivery joules)
    else if same w.reference 0 || !isFinite w.reference then .error .noReference
    else
      let energy := joules / w.reference
      .ok ⟨w.blend delivery energy, delivery, energy, false⟩

end Weights

end

/-- The weights used where nothing else is said. -/
def Weights.standard : Weights Float := ⟨1.0, 0.5, 0.05⟩

end LinkTuner

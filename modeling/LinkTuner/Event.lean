import LinkTuner.Catalog
import LinkTuner.Random.Draw
import LinkTuner.Decimal.Format
import LinkTuner.Decimal.Read

/-!
# Events worth a line in the log

An event has a level, a message and named fields in a fixed order. What a strategy has to say about
a draw or an update is a `Note`, over whatever numbers the strategy calculates with.
-/

namespace LinkTuner

/-- How urgent an event is. -/
inductive Level where
  | debug
  | info
  | warn
  | error
  deriving DecidableEq, Repr

/-- A level as it is shown. -/
def Level.text : Level → String
  | .debug => "DEBUG"
  | .info => "INFO"
  | .warn => "WARN"
  | .error => "ERROR"

/-- How urgent each level is. -/
def Level.rank : Level → Nat
  | .debug => 0
  | .info => 1
  | .warn => 2
  | .error => 3

/-- One line of the log. -/
structure Event where
  level : Level
  message : String
  fields : List (String × String)
  deriving DecidableEq, Repr

/-- The fields of an event as they are shown. -/
def Event.fieldTexts (e : Event) : List String := e.fields.map fun (k, v) => k ++ "=" ++ v

/-- An event as it is shown. -/
def Event.line (e : Event) : String :=
  " ".intercalate (e.level.text :: e.message :: e.fieldTexts)

/-- Whether an event is shown in a log of a given setting: the name of the least urgent level that is
shown, or `off`. Any other setting stands for `info`. -/
def Event.isShown (setting : String) (e : Event) : Bool :=
  match String.ofList (Decimal.lower setting.toList) with
  | "off" => false
  | "error" => Level.error.rank ≤ e.level.rank
  | "warn" => Level.warn.rank ≤ e.level.rank
  | "debug" | "trace" => true
  | _ => Level.info.rank ≤ e.level.rank

/-- What a strategy says about one draw or update. -/
inductive Note (α : Type) where
  | undefinedReward (value : α)
  | rewardOutside (value clamped low high : α)
  | weightless (problem : Random.WeightsProblem)
  | weightsKept (action : ActionId)
  | weightRaised (action : ActionId) (reward estimate probability : α)
  | partsOutside (delivery energy : α)
  | estimatesKept (action : ActionId)
  | estimateMoved (action : ActionId) (delivery energy : α) (count : Nat)
  deriving Repr

/-- The line of a note. -/
def Note.event : Note Float → Event
  | .undefinedReward value =>
    ⟨.warn, "NaN reward, treating as lower bound", [("reward", Decimal.scientific value)]⟩
  | .rewardOutside value clamped low high =>
    ⟨.warn, "reward outside expected range",
      [("reward", Decimal.scientific value), ("clamped", Decimal.scientific clamped),
        ("min", Decimal.scientific low), ("max", Decimal.scientific high)]⟩
  | .weightless problem =>
    ⟨.warn, "degenerate distribution, drawing uniformly", [("error", problem.message)]⟩
  | .weightsKept action =>
    ⟨.debug, "neutral reward, weights unchanged", [("action", action.text)]⟩
  | .weightRaised action reward estimate probability =>
    ⟨.debug, "exp3 update",
      [("action", action.text), ("reward", Decimal.scientific reward),
        ("estimate", Decimal.scientific estimate),
        ("probability", Decimal.scientific probability)]⟩
  | .partsOutside delivery energy =>
    ⟨.warn, "reward components outside expected range, clamped",
      [("delivery", Decimal.scientific delivery), ("energy", Decimal.scientific energy)]⟩
  | .estimatesKept action =>
    ⟨.debug, "neutral reward, estimates unchanged", [("action", action.text)]⟩
  | .estimateMoved action delivery energy count =>
    ⟨.debug, "value update",
      [("action", action.text), ("delivery", Decimal.scientific delivery),
        ("energy", Decimal.scientific energy), ("count", Decimal.textOfNat count)]⟩

end LinkTuner

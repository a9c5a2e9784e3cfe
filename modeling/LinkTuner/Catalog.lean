import LinkTuner.Decimal.Natural

/-!
# The catalog of actions

An action is a pair of a spreading factor and a transmission power. The catalog numbers the pairs
row by row: the action in row `i` and column `j` has the number `i * columns + j`.
-/

namespace LinkTuner

/-- The number of an action. -/
structure ActionId where
  index : UInt32
  deriving DecidableEq, Repr, Inhabited

namespace ActionId

/-- The number as a place in a list. -/
def toNat (a : ActionId) : Nat := a.index.toNat

/-- The action of a given number. -/
def ofNat (n : Nat) : ActionId := ⟨UInt32.ofNat n⟩

/-- The number as text. -/
def text (a : ActionId) : String := Decimal.textOfNat a.toNat

end ActionId

/-- What a device sets its radio to. -/
structure RadioSetting where
  factor : UInt8
  power : Int8
  deriving DecidableEq, Repr

/-- A radio setting as it is shown. -/
def RadioSetting.display (s : RadioSetting) : String :=
  "SF" ++ Decimal.textOfNat s.factor.toNat ++ "/TP" ++ Decimal.textOfInt s.power.toInt ++ "dBm"

/-- Why an action is refused. -/
inductive ActionFault where
  | outside (action : ActionId) (arms : Nat)
  | pair (factor : UInt8) (power : Int8)
  | place (row column rows columns : Nat)
  deriving DecidableEq, Repr

/-- The wording of a refusal. -/
def ActionFault.message : ActionFault → String
  | .outside action arms =>
    "invalid action " ++ action.text ++ ": catalog has " ++ Decimal.textOfNat arms ++ " actions"
  | .pair factor power =>
    "invalid action pair: SF" ++ Decimal.textOfNat factor.toNat ++ " / " ++
      Decimal.textOfInt power.toInt ++ " dBm is not in the catalog"
  | .place row column rows columns =>
    "invalid action index (" ++ Decimal.textOfNat row ++ ", " ++ Decimal.textOfNat column ++
      "): catalog is " ++ Decimal.textOfNat rows ++ "x" ++ Decimal.textOfNat columns

/-- Why two lists of options make no catalog. -/
inductive CatalogFault where
  | emptyOptions
  | repeatedOption
  | tooManyActions
  deriving DecidableEq, Repr

/-- The wording of a refusal. -/
def CatalogFault.message : CatalogFault → String
  | .emptyOptions => "spreading factor and power option lists must be non-empty"
  | .repeatedOption => "spreading factor and power option lists must not repeat values"
  | .tooManyActions => "too many actions"

/-- Whether a list holds some value twice. -/
def repeatsValue {α : Type} [BEq α] : List α → Bool
  | [] => false
  | x :: xs => xs.contains x || repeatsValue xs

/-- The options that are combined, in the order in which they are numbered. -/
structure Catalog where
  factors : List UInt8
  powers : List Int8
  deriving DecidableEq, Repr

namespace Catalog

/-- The spreading factors of the European band. -/
def defaultFactors : List UInt8 := [7, 8, 9, 10, 11, 12]

/-- The power steps of the European band, in decibels over a milliwatt. -/
def defaultPowers : List Int8 := [2, 5, 8, 11, 14]

/-- The European band. -/
def standard : Catalog := ⟨defaultFactors, defaultPowers⟩

/-- The catalog of two lists of options, neither of them empty or with a repetition. -/
def ofOptions (factors : List UInt8) (powers : List Int8) : Except CatalogFault Catalog :=
  if factors.isEmpty || powers.isEmpty then .error .emptyOptions
  else if repeatsValue factors || repeatsValue powers then .error .repeatedOption
  else if UInt32.size ≤ factors.length * powers.length then .error .tooManyActions
  else .ok ⟨factors, powers⟩

variable (c : Catalog)

/-- The number of actions. -/
def size : Nat := c.factors.length * c.powers.length

/-- Whether a number is that of an action. -/
def contains (a : ActionId) : Bool := a.toNat < c.size

/-- The action itself, if there is one of its number. -/
def check (a : ActionId) : Except ActionFault ActionId :=
  if c.contains a then .ok a else .error (.outside a c.size)

/-- The action in a given row and column. -/
def encodeIndex (row column : Nat) : Except ActionFault ActionId :=
  if row < c.factors.length ∧ column < c.powers.length then
    .ok (.ofNat (row * c.powers.length + column))
  else .error (.place row column c.factors.length c.powers.length)

/-- The action that stands for a pair of options. -/
def encode (factor : UInt8) (power : Int8) : Except ActionFault ActionId :=
  match c.factors.idxOf? factor, c.powers.idxOf? power with
  | some row, some column => c.encodeIndex row column
  | _, _ => .error (.pair factor power)

/-- The row and the column of an action. -/
def decodeIndex (a : ActionId) : Except ActionFault (Nat × Nat) :=
  (c.check a).map fun a => (a.toNat / c.powers.length, a.toNat % c.powers.length)

/-- The options in a row and a column. -/
def setting? (row column : Nat) : Option RadioSetting := do
  return ⟨← c.factors[row]?, ← c.powers[column]?⟩

/-- The options that an action stands for. -/
def decode (a : ActionId) : Except ActionFault RadioSetting := do
  let (row, column) ← c.decodeIndex a
  match c.setting? row column with
  | some setting => return setting
  | none => throw (.outside a c.size)

/-- All actions in the order of their numbers, each with its options. -/
def entries : List (ActionId × RadioSetting) :=
  (c.factors.flatMap fun factor => c.powers.map fun power => RadioSetting.mk factor power).mapIdx
    fun i setting => (.ofNat i, setting)

/-- An action as it is shown beside a decision. -/
def describe (a : ActionId) : String :=
  match c.decode a with
  | .ok setting => setting.display
  | .error _ => "?"

end Catalog

end LinkTuner

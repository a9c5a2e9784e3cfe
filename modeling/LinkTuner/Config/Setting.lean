import LinkTuner.Config.Basic

/-!
# Settings

A source of configuration gives a tree of settings. `overlay` lays one tree over another: tables
are joined name by name, and everything else is replaced. A setting is found by the path of names
that leads to it.
-/

namespace LinkTuner

/-- A tree of settings. -/
inductive Setting where
  | nothing
  | bool (b : Bool)
  | text (s : String)
  /-- A whole number written in a place where only such without a sign are meant. -/
  | natural (n : Nat)
  | whole (n : Int)
  | decimal (x : Float)
  | list (items : List Setting)
  | table (entries : List (String × Setting))
  deriving Repr, Inhabited

namespace Setting

/-- The setting of a name. -/
def named? (name : String) (entries : List (String × Setting)) : Option Setting :=
  (entries.find? (·.1 == name)).map (·.2)

/-- The entries with a setting for a name, in the place of the one it had. -/
def put (name : String) (v : Setting) : List (String × Setting) → List (String × Setting)
  | [] => [(name, v)]
  | (k, w) :: rest => if k == name then (name, v) :: rest else (k, w) :: put name v rest

mutual

/-- The second tree laid over the first. -/
def overlay : Setting → Setting → Setting
  | .table lower, .table upper => .table (overlayEntries lower upper)
  | _, upper => upper

/-- Entries laid over others, one after another. -/
def overlayEntries (lower : List (String × Setting)) :
    List (String × Setting) → List (String × Setting)
  | [] => lower
  | (k, v) :: rest =>
    let joined := match named? k lower with
      | some w => overlay w v
      | none => v
    overlayEntries (put k joined lower) rest

end

/-- The setting at the end of a path. -/
def at? : List String → Setting → Option Setting
  | [], v => some v
  | name :: path, .table entries => (named? name entries).bind (at? path)
  | _ :: _, _ => none

/-- The tree whose only setting lies at the end of a path. -/
def nested : List String → Setting → Setting
  | [], v => v
  | name :: path, v => .table [(name, nested path v)]

/-- Trees laid over each other, the last one on top. -/
def layers (trees : List Setting) : Setting := trees.foldl overlay (.table [])

@[simp] theorem at?_nested (path : List String) (v : Setting) : (nested path v).at? path = some v := by
  induction path with
  | nil => rfl
  | cons name path ih => simp [nested, at?, named?, ih]

end Setting

end LinkTuner

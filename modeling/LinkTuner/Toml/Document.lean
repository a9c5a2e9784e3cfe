import LinkTuner.Config.Setting

/-!
# Documents under construction

A table may be opened by a header, by the path of a header that lies deeper, or by the path of a
setting. Which of these it was decides whether it may still be added to: a table with a header is
not opened twice, and a path of a setting enters only tables that such paths have made.
-/

namespace LinkTuner.Toml

/-- A part of a document. -/
inductive Node where
  /-- A value, which is complete. -/
  | value (v : Setting)
  /-- A table. It is implicit until its own header is read, and dotted when the path of a setting
  made it. -/
  | table (implicit dotted : Bool) (entries : List (String × Node))
  /-- Tables of one name, each with a header of its own. -/
  | rows (tables : List (List (String × Node)))
  deriving Inhabited

/-- The entries of a table. -/
abbrev Entries := List (String × Node)

/-- The node of a name. -/
def node? (name : String) (es : Entries) : Option Node := (es.find? (·.1 == name)).map (·.2)

/-- The entries with another node for a name. -/
def setNode (name : String) (n : Node) : Entries → Entries
  | [] => [(name, n)]
  | (k, m) :: rest => if k == name then (name, n) :: rest else (k, m) :: setNode name n rest

/-- A change of the table at the end of a path. Tables on the way are made where they are missing.
The change is told whether the table was made by the path of a setting. -/
def change (dotted : Bool) (f : Bool → Entries → Option Entries) :
    List String → Bool → Entries → Option Entries
  | [], here, es => f here es
  | name :: path, _, es =>
    match node? name es with
    | none => (change dotted f path dotted []).map fun sub =>
        setNode name (.table true dotted sub) es
    | some (.value _) => none
    | some (.rows tables) => do
      let last ← tables.getLast?
      let sub ← change dotted f path false last
      return setNode name (.rows (tables.dropLast ++ [sub])) es
    | some (.table implicit madeByPath entries) =>
      if dotted && !implicit then none
      else (change dotted f path madeByPath entries).map fun sub =>
        setNode name (.table implicit madeByPath sub) es

/-- Adding a setting at a path, which must be free. -/
def addSetting (path : List String) (v : Setting) (es : Entries) : Option Entries := do
  let name ← path.getLast?
  let parents := path.dropLast
  change true (fun dotted es =>
    if dotted == parents.isEmpty then none
    else match node? name es with
      | some _ => none
      | none => some (es ++ [(name, .value v)])) parents false es

/-- Opening the table of a header. -/
def openTable (path : List String) (es : Entries) : Option Entries := do
  let name ← path.getLast?
  change false (fun _ es =>
    match node? name es with
    | none => some (es ++ [(name, .table false false [])])
    | some (.table true false sub) => some (setNode name (.table false false sub) es)
    | some _ => none) path.dropLast false es

/-- Opening one more table of a name. -/
def openRow (path : List String) (es : Entries) : Option Entries := do
  let name ← path.getLast?
  change false (fun _ es =>
    match node? name es with
    | none => some (es ++ [(name, .rows [[]])])
    | some (.rows tables) => some (setNode name (.rows (tables ++ [[]])) es)
    | some _ => none) path.dropLast false es

/-- Adding a setting to the table that a header opened. -/
def addUnder (header path : List String) (v : Setting) (es : Entries) : Option Entries :=
  change false (fun _ es => addSetting path v es) header false es

mutual

/-- The settings of a node. -/
def Node.setting : Node → Setting
  | .value v => v
  | .table _ _ es => .table (settingsOf es)
  | .rows tables => .list (rowSettings tables)

/-- The settings of entries. -/
def settingsOf : List (String × Node) → List (String × Setting)
  | [] => []
  | (name, n) :: rest => (name, n.setting) :: settingsOf rest

/-- The settings of tables of one name. -/
def rowSettings : List (List (String × Node)) → List Setting
  | [] => []
  | es :: rest => .table (settingsOf es) :: rowSettings rest

end

end LinkTuner.Toml

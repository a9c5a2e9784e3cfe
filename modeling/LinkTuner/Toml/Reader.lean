import LinkTuner.Toml.Document
import LinkTuner.Toml.Token

/-!
# Reading a TOML text

A text is a list of lines: headers, settings, comments and empty ones. `read?` gives the tree of its
settings, or nothing when the text breaks the grammar or defines something twice.
-/

namespace LinkTuner.Toml

mutual

/-- A value and what follows it. The first argument bounds the work, the second the nesting. -/
def value? : Nat → Nat → List Char → Option (Setting × List Char)
  | 0, _, _ => none
  | fuel + 1, depth, cs =>
    match cs with
    | '[' :: rest =>
      match depth with
      | 0 => none
      | depth + 1 => (items? fuel depth rest).map fun (vs, rest) => (.list vs, rest)
    | '\x7b' :: rest =>
      match depth with
      | 0 => none
      | depth + 1 =>
        match skipBlank rest with
        | '\x7d' :: rest => some (.table [], rest)
        | rest => (pairs? fuel depth [] rest).map fun (es, rest) => (.table (settingsOf es), rest)
    | '"' :: _ => (text? cs).map fun (s, rest) => (.text (String.ofList s), rest)
    | '\'' :: _ => (text? cs).map fun (s, rest) => (.text (String.ofList s), rest)
    | _ => word? cs

/-- The items of a list up to its closing bracket. -/
def items? : Nat → Nat → List Char → Option (List Setting × List Char)
  | 0, _, _ => none
  | fuel + 1, depth, cs =>
    match skipSpace cs.length cs with
    | ']' :: rest => some ([], rest)
    | cs => do
      let (v, rest) ← value? fuel depth cs
      match skipSpace rest.length rest with
      | ',' :: rest =>
        let (vs, rest) ← items? fuel depth rest
        return (v :: vs, rest)
      | ']' :: rest => return ([v], rest)
      | _ => none

/-- The settings of a table on one line, up to its closing brace and after those already read. -/
def pairs? : Nat → Nat → Entries → List Char → Option (Entries × List Char)
  | 0, _, _, _ => none
  | fuel + 1, depth, es, cs => do
    let (path, rest) ← name? cs
    match rest with
    | '=' :: rest =>
      let (v, rest) ← value? fuel depth (skipBlank rest)
      let es ← addSetting path v es
      match skipBlank rest with
      | ',' :: rest => pairs? fuel depth es rest
      | '\x7d' :: rest => return (es, rest)
      | _ => none
    | _ => none

end

/-- A document as far as it was read, and the header under which its settings stand. -/
structure Draft where
  entries : Entries
  header : List String

/-- What follows the end of a line, after a comment or none; at the end of the text nothing does. -/
def finishLine? (cs : List Char) : Option (List Char) :=
  match skipComment (skipBlank cs) with
  | [] => some []
  | cs => lineEnd? cs

/-- The name in a header and what follows its brackets. -/
def header? (close : List Char) (cs : List Char) : Option (List String × List Char) := do
  let (path, rest) ← name? cs
  if close.isPrefixOf rest then return (path, rest.drop close.length) else none

/-- One line. -/
def line? (d : Draft) (cs : List Char) : Option (Draft × List Char) :=
  match skipBlank cs with
  | '[' :: '[' :: rest => do
    let (path, rest) ← header? [']', ']'] rest
    return (⟨← openRow path d.entries, path⟩, ← finishLine? rest)
  | '[' :: rest => do
    let (path, rest) ← header? [']'] rest
    return (⟨← openTable path d.entries, path⟩, ← finishLine? rest)
  | cs =>
    match finishLine? cs with
    | some rest => some (d, rest)
    | none => do
      let (path, rest) ← name? cs
      match rest with
      | '=' :: rest =>
        let (v, rest) ← value? (2 * rest.length + 2) maxDepth (skipBlank rest)
        return (⟨← addUnder d.header path v d.entries, d.header⟩, ← finishLine? rest)
      | _ => none

/-- All lines. -/
def lines? : Nat → Draft → List Char → Option Draft
  | _, d, [] => some d
  | 0, _, _ :: _ => none
  | fuel + 1, d, cs => do
    let (d, rest) ← line? d cs
    lines? fuel d rest

/-- The settings of a text. A byte order mark at its beginning does not count. -/
def read? (text : String) : Option Setting :=
  let cs := match text.toList with
    | '\ufeff' :: rest => rest
    | cs => cs
  (lines? (cs.length + 1) ⟨[], []⟩ cs).map fun d => .table (settingsOf d.entries)

end LinkTuner.Toml

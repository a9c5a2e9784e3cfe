import LinkTuner.Config.Extract
import LinkTuner.Decimal.Format

/-!
# Writing a TOML text

Settings that are missing are left out. Tables follow the other settings, each under a header after
an empty line. There is no text for a whole number of `2 ^ 63` or above.
-/

namespace LinkTuner.Toml

/-- How text is put between quotation marks. -/
inductive Quotation where
  /-- Between double marks, with escapes. -/
  | basic
  /-- Between single marks, as it is. -/
  | literal
  /-- Between three double marks, with escapes; ends of lines and two marks in a row need none. -/
  | basicLines
  /-- Between three single marks, as it is. -/
  | literalLines
  deriving DecidableEq, Repr

/-- The length of the longest run of a character. -/
def longestRun (c : Char) : Nat → Nat → List Char → Nat
  | run, best, [] => max run best
  | run, best, d :: rest =>
    if d = c then longestRun c (run + 1) best rest else longestRun c 0 (max run best) rest

/-- The control characters of the basic block. -/
def isPlainControl (c : Char) : Bool := c.toNat < 0x20 || c.toNat = 0x7f

/-- The quotation of text: the first of the four, in the order basic, literal, basic in lines and
literal in lines, in which it stands without any escape but those of tabulators; where there is none,
a basic one. -/
def quotationOf (cs : List Char) : Quotation :=
  let inLines := cs.contains '\n'
  let controls := cs.any fun c => isPlainControl c && c != '\t' && c != '\n'
  let singles := longestRun '\'' 0 0 cs
  let doubles := longestRun '"' 0 0 cs
  let escapes := cs.contains '\\'
  if !controls && !escapes && doubles = 0 && !inLines then .basic
  else if !controls && singles = 0 && !inLines then .literal
  else if !controls && !escapes && doubles ≤ 2 then .basicLines
  else if !controls && singles ≤ 2 then .literalLines
  else if inLines then .basicLines
  else .basic

/-- One character other than the double mark with escapes. -/
def escapeChar (inLines : Bool) (c : Char) : List Char :=
  if c = '\x08' then ['\\', 'b']
  else if c = '\t' then ['\\', 't']
  else if c = '\n' then if inLines then ['\n'] else ['\\', 'n']
  else if c = '\x0c' then ['\\', 'f']
  else if c = '\r' then ['\\', 'r']
  else if c = '\\' then ['\\', '\\']
  else if isPlainControl c then
    ['\\', 'u', '0', '0'] ++ [c.toNat / 16, c.toNat % 16].map fun n => (Text.hexDigit n).toUpper
  else [c]

/-- Text with escapes, after `run` double marks in a row that have none. In lines two of them may
stand together, so that no three end the text. -/
def escaped (inLines : Bool) : Nat → List Char → List Char
  | _, [] => []
  | run, c :: rest =>
    if c = '"' then
      if inLines && run < 2 then '"' :: escaped inLines (run + 1) rest
      else '\\' :: '"' :: escaped inLines 0 rest
    else escapeChar inLines c ++ escaped inLines 0 rest

/-- Text between its quotation marks. In lines, text that has several of them begins on a line of
its own. -/
def quoted (s : String) : List Char :=
  let cs := s.toList
  let start := if cs.contains '\n' then ['\n'] else []
  match quotationOf cs with
  | .basic => '"' :: escaped false 0 cs ++ ['"']
  | .literal => '\'' :: cs ++ ['\'']
  | .basicLines =>
    let marks := List.replicate 3 '"'
    marks ++ start ++ escaped true 0 cs ++ marks
  | .literalLines =>
    let marks := List.replicate 3 '\''
    marks ++ start ++ cs ++ marks

/-- The text of a setting that is neither a list nor a table. -/
def scalar? : Setting → Option (List Char)
  | .bool b => some (if b then "true".toList else "false".toList)
  | .text s => some (quoted s)
  | .natural n => if n < Decimal.signedLimit then some (Decimal.digits n) else none
  | .whole n => some (Decimal.textOfInt n).toList
  | .decimal x => some (Decimal.textIn .settings x).toList
  | _ => none

/-- The text of a list: each item on its own line, if there are several. -/
def list? (items : List Setting) : Option (List Char) := do
  let texts ← items.mapM scalar?
  match texts with
  | [] => return "[]".toList
  | [text] => return '[' :: text ++ [']']
  | texts => return "[\n".toList ++ texts.flatMap (fun text => "    ".toList ++ text ++ ",\n".toList)
      ++ [']']

/-- The line of a setting, or nothing for one that is missing or is a table. -/
def lineOf? : String × Setting → Option (List Char)
  | (_, .nothing) | (_, .table _) => some []
  | (name, .list items) => do return name.toList ++ " = ".toList ++ (← list? items) ++ ['\n']
  | (name, v) => do return name.toList ++ " = ".toList ++ (← scalar? v) ++ ['\n']

/-- The lines of the settings that are no tables. -/
def linesOf? (entries : List (String × Setting)) : Option (List Char) :=
  (entries.mapM lineOf?).map List.flatten

/-- The section of a table. -/
def section? : String × Setting → Option (List Char)
  | (name, .table entries) => do
    return "\n[".toList ++ name.toList ++ "]\n".toList ++ (← linesOf? entries)
  | _ => some []

/-- The text of a tree with tables on its first level only. -/
def write? (entries : List (String × Setting)) : Option String := do
  let top ← linesOf? entries
  let sections ← entries.mapM section?
  return String.ofList (top ++ sections.flatten)

end LinkTuner.Toml

namespace LinkTuner

/-- The text of a configuration. -/
def Config.toToml? (c : Config) : Option String :=
  match c.settings with
  | .table entries => Toml.write? entries
  | _ => none

end LinkTuner

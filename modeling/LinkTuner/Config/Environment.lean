import LinkTuner.Config.Setting
import LinkTuner.Decimal.Read
import LinkTuner.Text.Blank
import LinkTuner.Text.Hex

/-!
# Settings from the environment

A variable whose name begins with `ADR_`, in any case, is a setting. The rest of the name in lower
case is the path, with two underlines between its parts; a name with an empty part is no setting,
and neither is `log`, which is read where the log is set up.

A value is a truth value, a table `{k=v, …}`, a list `[v, …]`, text in double or a character in
single quotation marks, a number, or else plain text. A value that is none of these to its end is
text as it stands. Some texts with escapes cannot be read at all, and with them nothing can.
-/

namespace LinkTuner.Environment

/-- The beginning of the names. -/
def mark : List Char := "ADR_".toList

/-- Every pair of underlines turned into a point. -/
def pointed : List Char → List Char
  | '_' :: '_' :: rest => '.' :: pointed rest
  | c :: rest => c :: pointed rest
  | [] => []

/-- The path that a name stands for. White space around the name and around what follows the mark
does not count. -/
def path? (name : String) : Option (List String) :=
  let cs := Text.trim name.toList
  if Decimal.lower (cs.take mark.length) ≠ Decimal.lower mark then none
  else
    let rest := cs.drop mark.length
    if Decimal.lower rest = "log".toList then none
    else
      let parts := (Text.split '.' (Text.trim (pointed rest))).map fun part =>
        String.ofList (Decimal.lower part)
      if parts.contains "" then none else some parts

/-- Whether a character can stand in plain text inside a list or a table. -/
def isPlain (c : Char) : Bool :=
  !(c == ',' || c == '\x7b' || c == '\x7d' || c == '[' || c == ']')

/-- Whether a character can stand in a name without quotation marks. -/
def isNameChar (c : Char) : Bool := c.isAlphanum || c == '_' || c == '-'

/-- The character of a code point, if there is one. -/
def charOf? (n : Nat) : Option Char := if n.isValidChar then some (Char.ofNat n) else none

/-- Why a value cannot be read. -/
inductive ValueFault where
  /-- It is no value to its end. -/
  | malformed
  /-- The cut before the first escape of a text goes through a character. -/
  | cutCharacter
  deriving DecidableEq, Repr

/-- What was read, or nothing, which is a malformed value. -/
def orMalformed {α : Type} (found : Option α) : Except ValueFault α :=
  found.elim (.error .malformed) .ok

/-- Text up to its closing quotation mark, escapes and all, and what follows the mark. -/
def written? : List Char → Option (List Char × List Char)
  | [] => none
  | '"' :: rest => some ([], rest)
  | '\\' :: c :: rest => (written? rest).map fun (cs, rest) => ('\\' :: c :: cs, rest)
  | c :: rest => (written? rest).map fun (cs, rest) => (c :: cs, rest)

/-- Whether a character can stand in quoted text: every one but controls, of which only the tabulator
can. -/
def isQuotable (c : Char) : Bool := c == '\t' || (0x20 ≤ c.toNat && c.toNat ≠ 0x7f)

/-- Quoted text with its escapes read. -/
def unescaped? : List Char → Option (List Char)
  | [] => some []
  | '\\' :: 'u' :: a :: b :: c :: d :: rest => do
    let ch ← charOf? (← Text.hexNumber? [a, b, c, d])
    return ch :: (← unescaped? rest)
  | '\\' :: 'U' :: a :: b :: c :: d :: e :: f :: g :: h :: rest => do
    let ch ← charOf? (← Text.hexNumber? [a, b, c, d, e, f, g, h])
    return ch :: (← unescaped? rest)
  | '\\' :: e :: rest => do
    let ch ← match e with
      | '"' => some '"'
      | '\\' => some '\\'
      | 'b' => some '\x08'
      | 'f' => some '\x0c'
      | 'n' => some '\n'
      | 'r' => some '\r'
      | 't' => some '\t'
      | _ => none
    return ch :: (← unescaped? rest)
  | c :: rest =>
    if c = '\\' || !isQuotable c then none else (unescaped? rest).map (c :: ·)

/-- The characters that make up exactly the first `n` bytes. -/
def firstBytes? : Nat → List Char → Option (List Char)
  | 0, _ => some []
  | _ + 1, [] => none
  | n + 1, c :: cs =>
    if c.utf8Size ≤ n + 1 then (firstBytes? (n + 1 - c.utf8Size) cs).map (c :: ·) else none

/-- What quoted text stands for. Of the text before the first escape as many bytes are kept as it has
characters, so beside escapes only text of single bytes is safe. -/
def meant (cs : List Char) : Except ValueFault (List Char) := do
  let before := cs.takeWhile (· != '\\')
  if !before.all isQuotable then throw .malformed
  match cs.drop before.length with
  | [] => return before
  | escapes =>
    let kept ← (firstBytes? before.length before).elim (.error .cutCharacter) .ok
    return kept ++ (← orMalformed (unescaped? escapes))

/-- Text after its opening quotation mark. -/
def quoted (cs : List Char) : Except ValueFault (String × List Char) := do
  let (inner, rest) ← orMalformed (written? cs)
  return (String.ofList (← meant inner), rest)

/-- Plain text as the number it looks like, or as text: with a point a decimal number, without one
a whole number, preferably one without a sign. -/
def plain (cs : List Char) : Setting :=
  let decimal := if cs.contains '.' then Decimal.float? cs else none
  match decimal, Decimal.unsigned? UInt64.size cs, Decimal.signed? Decimal.signedLimit cs with
  | some x, _, _ => .decimal x
  | none, some n, _ => .natural n
  | none, none, some n => .whole n
  | none, none, none => .text (String.ofList cs)

/-- A name in a table. -/
def entryName (cs : List Char) : Except ValueFault (String × List Char) :=
  match cs with
  | '"' :: rest => quoted rest
  | _ =>
    match cs.takeWhile isNameChar with
    | [] => .error .malformed
    | k => .ok (String.ofList k, cs.drop k.length)

/-- What follows white space. -/
def skip (cs : List Char) : List Char := cs.dropWhile Text.isPlainBlank

/-- A word and what follows it. -/
def after? (word : String) (cs : List Char) : Option (List Char) :=
  if word.toList.isPrefixOf cs then some (cs.drop word.length) else none

mutual

/-- A value and what follows it. The first argument bounds the nesting and the length of lists
together. -/
def value : Nat → List Char → Except ValueFault (Setting × List Char)
  | 0, _ => .error .malformed
  | fuel + 1, cs => do
    let cs := skip cs
    let (v, rest) ← match after? "true" cs, after? "false" cs with
      | some rest, _ => pure (Setting.bool true, rest)
      | none, some rest => pure (Setting.bool false, rest)
      | none, none =>
        match cs with
        | '\x7b' :: rest => (entries fuel rest).map fun (es, rest) => (Setting.table es, rest)
        | '[' :: rest => (items fuel rest).map fun (vs, rest) => (Setting.list vs, rest)
        | '"' :: rest => (quoted rest).map fun (s, rest) => (Setting.text s, rest)
        | '\'' :: rest =>
          match rest with
          | c :: '\'' :: rest => pure (Setting.text (String.ofList [c]), rest)
          | _ => throw .malformed
        | cs =>
          let word := cs.takeWhile isPlain
          pure (plain (Text.trim word), cs.drop word.length)
    return (v, skip rest)

/-- The items of a list and what follows its end. A comma may stand after the last one. -/
def items : Nat → List Char → Except ValueFault (List Setting × List Char)
  | 0, _ => .error .malformed
  | _ + 1, ']' :: rest => .ok ([], rest)
  | fuel + 1, cs => do
    let (v, rest) ← value fuel cs
    match rest with
    | ',' :: rest =>
      let (vs, rest) ← items fuel rest
      return (v :: vs, rest)
    | ']' :: rest => return ([v], rest)
    | _ => throw .malformed

/-- The entries of a table and what follows its end. Of several entries of one name the last one
counts. -/
def entries : Nat → List Char →
    Except ValueFault (List (String × Setting) × List Char)
  | 0, _ => .error .malformed
  | _ + 1, '\x7d' :: rest => .ok ([], rest)
  | fuel + 1, cs => do
    let (k, rest) ← entryName (skip cs)
    match skip rest with
    | '=' :: rest =>
      let (v, rest) ← value fuel rest
      match rest with
      | ',' :: rest =>
        let (es, rest) ← entries fuel rest
        return (if es.any (·.1 == k) then es else (k, v) :: es, rest)
      | '\x7d' :: rest => return ([(k, v)], rest)
      | _ => throw .malformed
    | _ => throw .malformed

end

/-- The setting that a value stands for; a malformed one is text as it stands. There is none where a
text would be cut inside a character. -/
def setting? (text : String) : Option Setting :=
  let cs := text.toList
  match value (2 * cs.length + 2) cs with
  | .ok (v, []) => some v
  | .error .cutCharacter => none
  | _ => some (.text text)

/-- The variables of a text in which each entry, a name and a value with an equals sign between them,
ends with a zero character. -/
def bindings (text : List Char) : List (String × String) :=
  (Text.split '\x00' text).filterMap fun entry =>
    match entry.dropWhile (· != '=') with
    | [] => none
    | _ :: value => some (String.ofList (entry.takeWhile (· != '=')), String.ofList value)

/-- The tree of the variables given, if all of them can be read. -/
def settings? (given : List (String × String)) : Option Setting := do
  let named := given.filterMap fun (name, value) => (path? name).map fun path => (path, value)
  let trees ← named.mapM fun (path, value) => (setting? value).map (.nested path)
  return .layers trees

end LinkTuner.Environment

import LinkTuner.Config.Environment

/-!
# The tokens of a TOML text

Text in its four kinds of quotation marks, names, and the words that stand for truth values,
numbers, dates and times. Every reader takes its token from the beginning of the text and gives what
follows.
-/

namespace LinkTuner.Toml

/-- A reader: what was found and what follows it. -/
abbrev Reader (α : Type) := List Char → Option (α × List Char)

/-- What may stand in a comment, and between quotation marks on one line. -/
def isVisible (c : Char) : Bool := c == '\t' || (0x20 ≤ c.toNat && c.toNat ≠ 0x7f)

/-- Blanks within a line. -/
def isBlank (c : Char) : Bool := c == ' ' || c == '\t'

/-- What follows blanks. -/
def skipBlank (cs : List Char) : List Char := cs.dropWhile isBlank

/-- What follows the end of a line. -/
def lineEnd? : List Char → Option (List Char)
  | '\n' :: rest => some rest
  | '\r' :: '\n' :: rest => some rest
  | _ => none

/-- What follows blanks and ends of lines. -/
def skipLines : List Char → List Char
  | '\r' :: '\n' :: rest => skipLines rest
  | c :: rest => if isBlank c || c == '\n' then skipLines rest else c :: rest
  | [] => []

/-- What follows a comment, if there is one. -/
def skipComment : List Char → List Char
  | '#' :: rest => rest.dropWhile isVisible
  | cs => cs

/-- What follows blanks, comments and ends of lines. -/
def skipSpace : Nat → List Char → List Char
  | 0, cs => cs
  | fuel + 1, cs =>
    match lineEnd? (skipComment (skipBlank cs)) with
    | some rest => skipSpace fuel rest
    | none => skipComment (skipBlank cs)

/-- The character that an escape of one letter stands for. -/
def escaped? : Char → Option Char
  | 'b' => some '\x08'
  | 't' => some '\t'
  | 'n' => some '\n'
  | 'f' => some '\x0c'
  | 'r' => some '\r'
  | '"' => some '"'
  | '\\' => some '\\'
  | _ => none

/-- An escape after its reverse solidus. -/
def escape? : Reader Char
  | 'u' :: a :: b :: c :: d :: rest => do
    return (← Environment.charOf? (← Text.hexNumber? [a, b, c, d]), rest)
  | 'U' :: a :: b :: c :: d :: e :: f :: g :: h :: rest => do
    return (← Environment.charOf? (← Text.hexNumber? [a, b, c, d, e, f, g, h]), rest)
  | e :: rest => (escaped? e).map fun ch => (ch, rest)
  | [] => none

/-- Text on one line with escapes, after its opening quotation mark. -/
def basic? : Nat → Reader (List Char)
  | 0, _ => none
  | _ + 1, [] => none
  | fuel + 1, c :: rest =>
    if c = '"' then some ([], rest)
    else do
      let (ch, rest) ← if c = '\\' then escape? rest else
        if isVisible c then some (c, rest) else none
      let (cs, rest) ← basic? fuel rest
      return (ch :: cs, rest)

/-- Text on one line as it stands, after its opening quotation mark. -/
def literal? : Reader (List Char)
  | [] => none
  | c :: rest =>
    if c = '\'' then some ([], rest)
    else if isVisible c then (literal? rest).map fun (cs, rest) => (c :: cs, rest)
    else none

/-- The end of text on several lines: three marks, before which two more can belong to the text. -/
def closing? (mark : Char) (cs : List Char) : Option (List Char × List Char) :=
  let marks := (cs.takeWhile (· == mark)).length
  if marks < 3 then none
  else
    let extra := min (marks - 3) 2
    some (List.replicate extra mark, cs.drop (extra + 3))

/-- Text on several lines with escapes. An escaped end of line is left out with all blanks and ends
of lines after it. -/
def basicLines? : Nat → Reader (List Char)
  | 0, _ => none
  | _ + 1, [] => none
  | fuel + 1, c :: rest =>
    match closing? '"' (c :: rest) with
    | some ended => some ended
    | none =>
      match lineEnd? (c :: rest) with
      | some rest => (basicLines? fuel rest).map fun (cs, rest) => ('\n' :: cs, rest)
      | none =>
        if c = '\\' && (lineEnd? (skipBlank rest)).isSome then basicLines? fuel (skipLines rest)
        else do
          let (ch, rest) ← if c = '\\' then escape? rest else
            if isVisible c then some (c, rest) else none
          let (cs, rest) ← basicLines? fuel rest
          return (ch :: cs, rest)

/-- Text on several lines as it stands. -/
def literalLines? : Nat → Reader (List Char)
  | 0, _ => none
  | _ + 1, [] => none
  | fuel + 1, c :: rest =>
    match closing? '\'' (c :: rest) with
    | some ended => some ended
    | none =>
      match lineEnd? (c :: rest) with
      | some rest => (literalLines? fuel rest).map fun (cs, rest) => ('\n' :: cs, rest)
      | none =>
        if isVisible c then (literalLines? fuel rest).map fun (cs, rest) => (c :: cs, rest)
        else none

/-- The end of a line right after the opening marks does not belong to the text. -/
def skipFirstEnd (cs : List Char) : List Char := (lineEnd? cs).getD cs

/-- Text in any of the four kinds of quotation marks. -/
def text? : Reader (List Char)
  | '"' :: '"' :: '"' :: rest => basicLines? (rest.length + 1) (skipFirstEnd rest)
  | '\'' :: '\'' :: '\'' :: rest => literalLines? (rest.length + 1) (skipFirstEnd rest)
  | '"' :: rest => basic? (rest.length + 1) rest
  | '\'' :: rest => literal? rest
  | _ => none

/-- One part of a name. -/
def part? : Reader String
  | '"' :: rest => (basic? (rest.length + 1) rest).map fun (cs, rest) => (String.ofList cs, rest)
  | '\'' :: rest => (literal? rest).map fun (cs, rest) => (String.ofList cs, rest)
  | cs =>
    match cs.takeWhile Environment.isNameChar with
    | [] => none
    | word => some (String.ofList word, cs.drop word.length)

/-- The parts of a name from the first one on, with points between them. -/
def parts? : Nat → Reader (List String)
  | 0, _ => none
  | fuel + 1, cs => do
    let (part, rest) ← part? (skipBlank cs)
    match skipBlank rest with
    | '.' :: rest =>
      let (parts, rest) ← parts? fuel rest
      return (part :: parts, rest)
    | rest => return ([part], rest)

/-- The greatest depth of names and values. -/
def maxDepth : Nat := 79

/-- A name. -/
def name? : Reader (List String) := parts? maxDepth

/-! ### Words -/

/-- Whether a character can stand in a word. -/
def isWordChar (c : Char) : Bool :=
  c.isAlphanum || c == '_' || c == '+' || c == '-' || c == '.' || c == ':'

/-- Digits without the underlines that may stand one by one between them. -/
def grouped? (isDigit : Char → Bool) : List Char → Option (List Char)
  | [] => none
  | [c] => if isDigit c then some [c] else none
  | c :: '_' :: rest => if isDigit c then (grouped? isDigit rest).map (c :: ·) else none
  | c :: rest => if isDigit c then (grouped? isDigit rest).map (c :: ·) else none

/-- Decimal digits that do not begin with a zero, or a zero alone. -/
def plainDigits? (cs : List Char) : Option (List Char) :=
  (grouped? Decimal.isDigit cs).filter fun ds => ds.head? != some '0' || cs.length == 1

/-- The number that digits of a base stand for, if it is below `2 ^ 63`. -/
def based? (base : Nat) (cs : List Char) : Option Setting := do
  let ds ← grouped? (fun c => ((Text.hexValue? c).filter (· < base)).isSome) cs
  let n ← Text.numberIn? base ds
  if n < Decimal.signedLimit then return .whole n else none

/-- A whole number after its sign. -/
def whole? (negative : Bool) (cs : List Char) : Option Setting := do
  let n ← Decimal.natural? (← plainDigits? cs)
  if negative then if n ≤ Decimal.signedLimit then return .whole (-(n : Int)) else none
  else if n < Decimal.signedLimit then return .whole n else none

/-- An exponent after its mark. -/
def exponent? (cs : List Char) : Option Int := do
  let (negative, rest) := Decimal.takeSign cs
  let n ← Decimal.natural? (← grouped? Decimal.isDigit rest)
  return if negative then -(n : Int) else n

/-- A decimal number after its sign: with a point, an exponent or both. -/
def decimal? (negative : Bool) (cs : List Char) : Option Setting := do
  let isMark (c : Char) : Bool := c == 'e' || c == 'E'
  let mantissa := cs.takeWhile fun c => !isMark c
  let exponent ← match cs.dropWhile fun c => !isMark c with
    | [] => some 0
    | _ :: rest => exponent? rest
  let (whole, fraction) ← match mantissa.dropWhile (· != '.') with
    | [] => if mantissa.length = cs.length then none else some (mantissa, [])
    | _ :: fraction => (grouped? Decimal.isDigit fraction).map fun ds =>
        (mantissa.takeWhile (· != '.'), ds)
  let literal : Decimal.Literal := ⟨negative, ← plainDigits? whole, fraction, exponent⟩
  if literal.bits = Decimal.infinityBits then none
  else return .decimal (Decimal.ofBits literal.bits)

/-- A number of two digits in a range. -/
def twoDigits? (low high : Nat) : Reader Nat
  | a :: b :: rest => do
    let n ← Decimal.natural? [a, b]
    if low ≤ n ∧ n ≤ high then return (n, rest) else none
  | _ => none

/-- The number of days in a month. -/
def daysIn (year month : Nat) : Nat :=
  if month = 2 then
    if year % 4 = 0 ∧ (year % 100 ≠ 0 ∨ year % 400 = 0) then 29 else 28
  else if month = 4 ∨ month = 6 ∨ month = 9 ∨ month = 11 then 30 else 31

/-- What follows a date. -/
def afterDate? : List Char → Option (List Char)
  | a :: b :: c :: d :: '-' :: rest => do
    let year ← Decimal.natural? [a, b, c, d]
    let (month, rest) ← twoDigits? 1 12 rest
    match rest with
    | '-' :: rest =>
      let (_, rest) ← twoDigits? 1 (daysIn year month) rest
      return rest
    | _ => none
  | _ => none

/-- What follows a time of day. -/
def afterTime? (cs : List Char) : Option (List Char) := do
  let (_, rest) ← twoDigits? 0 23 cs
  match rest with
  | ':' :: rest =>
    let (_, rest) ← twoDigits? 0 59 rest
    match rest with
    | ':' :: rest =>
      let (_, rest) ← twoDigits? 0 60 rest
      match rest with
      | '.' :: rest =>
        if (rest.takeWhile Decimal.isDigit).isEmpty then none
        else return rest.dropWhile Decimal.isDigit
      | rest => return rest
    | _ => none
  | _ => none

/-- Whether text is nothing or the distance from the mean time. -/
def isOffset : List Char → Bool
  | [] => true
  | ['Z'] | ['z'] => true
  | s :: rest =>
    (s == '+' || s == '-') &&
      match twoDigits? 0 23 rest with
      | some (_, ':' :: rest) =>
        match twoDigits? 0 59 rest with
        | some (_, []) => true
        | _ => false
      | _ => false

/-- Whether text is a time of day with or without an offset. -/
def isTimeOffset (cs : List Char) : Bool :=
  match afterTime? cs with
  | some rest => isOffset rest
  | none => false

/-- The setting that a date or a time is taken for. -/
def moment (cs : List Char) : Setting :=
  .table [("moment", .text (String.ofList cs))]

/-- The setting of a word without a sign. -/
def unsignedWord? (cs : List Char) : Option Setting :=
  match cs with
  | '0' :: 'x' :: ds => based? 16 ds
  | '0' :: 'o' :: ds => based? 8 ds
  | '0' :: 'b' :: ds => based? 2 ds
  | _ => (whole? false cs).orElse fun _ => decimal? false cs

/-- The infinite and the undefined number, with a sign or none. -/
def special? (negative : Bool) (cs : List Char) : Option Setting :=
  if cs = "inf".toList then
    some (.decimal (Decimal.ofBits (Decimal.signed negative Decimal.infinityBits)))
  else if cs = "nan".toList then
    some (.decimal (Decimal.ofBits (Decimal.signed negative Decimal.undefinedBits)))
  else none

/-- The setting of a word. A date may be followed by a time after one blank. -/
def word? : Reader Setting := fun cs =>
  let word := cs.takeWhile isWordChar
  let rest := cs.dropWhile isWordChar
  if word = "true".toList then some (.bool true, rest)
  else if word = "false".toList then some (.bool false, rest)
  else
    match afterDate? word with
    | some [] =>
      match rest with
      | ' ' :: next =>
        let time := next.takeWhile isWordChar
        if time.isEmpty then some (moment word, rest)
        else if isTimeOffset time then
          some (moment (word ++ ' ' :: time), next.dropWhile isWordChar)
        else none
      | _ => some (moment word, rest)
    | some (mark :: time) =>
      if (mark == 'T' || mark == 't') && isTimeOffset time then some (moment word, rest) else none
    | none =>
      if afterTime? word = some [] then some (moment word, rest)
      else
        let found := match word with
          | '-' :: ds => (special? true ds).orElse fun _ =>
              (whole? true ds).orElse fun _ => decimal? true ds
          | '+' :: ds => (special? false ds).orElse fun _ =>
              (whole? false ds).orElse fun _ => decimal? false ds
          | ds => (special? false ds).orElse fun _ => unsignedWord? ds
        found.map fun v => (v, rest)

end LinkTuner.Toml

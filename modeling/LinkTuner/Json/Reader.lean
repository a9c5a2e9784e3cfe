import LinkTuner.Json.Value
import LinkTuner.Text.Hex

/-!
# Reading JSON

`read?` accepts one value with white space around it and nothing else. Numbers and strings are
checked against the grammar only; what they stand for is found when they are used.
-/

namespace LinkTuner.Json

/-- White space between tokens. -/
def isSpace (c : Char) : Bool := c == ' ' || c == '\t' || c == '\n' || c == '\r'

/-- What follows white space. -/
def skip (cs : List Char) : List Char := cs.dropWhile isSpace

/-- A part of a string as it is read: a character, or one of the sixteen bit codes of which two
may be needed for a character. -/
inductive Piece where
  | char (c : Char)
  | unit (n : Nat)

/-- The character that an escape of one letter stands for. -/
def escaped? (c : Char) : Option Char :=
  match c with
  | '"' => some '"'
  | '\\' => some '\\'
  | '/' => some '/'
  | 'b' => some '\x08'
  | 'f' => some '\x0c'
  | 'n' => some '\n'
  | 'r' => some '\r'
  | 't' => some '\t'
  | _ => none

/-- The pieces of a string up to its closing quotation mark, and what follows that. -/
def readPieces : List Char → Option (List Piece × List Char)
  | [] => none
  | '"' :: rest => some ([], rest)
  | '\\' :: 'u' :: a :: b :: c :: d :: rest => do
    let n ← Text.hexNumber? [a, b, c, d]
    let (pieces, rest) ← readPieces rest
    return (.unit n :: pieces, rest)
  | '\\' :: e :: rest => do
    let c ← escaped? e
    let (pieces, rest) ← readPieces rest
    return (.char c :: pieces, rest)
  | c :: rest => do
    if c.toNat < 0x20 || c == '\\' then none
    let (pieces, rest) ← readPieces rest
    return (.char c :: pieces, rest)

/-- Whether a code is the first of a pair. -/
def isLeading (n : Nat) : Bool := 0xd800 ≤ n && n < 0xdc00

/-- Whether a code is the second of a pair. -/
def isTrailing (n : Nat) : Bool := 0xdc00 ≤ n && n < 0xe000

/-- The characters that pieces stand for; a code of a pair needs the other one beside it. -/
def assemble : List Piece → Option (List Char)
  | [] => some []
  | .char c :: rest => (assemble rest).map (c :: ·)
  | .unit n :: .unit m :: rest =>
    if isLeading n then
      if isTrailing m then
        (assemble rest).map (Char.ofNat (0x10000 + (n - 0xd800) * 0x400 + (m - 0xdc00)) :: ·)
      else none
    else if isTrailing n then none
    else (assemble (.unit m :: rest)).map (Char.ofNat n :: ·)
  | .unit n :: rest =>
    if isLeading n || isTrailing n then none
    else (assemble rest).map (Char.ofNat n :: ·)

/-- A string after its opening quotation mark. -/
def readString (cs : List Char) : Option (Option String × List Char) := do
  let (pieces, rest) ← readPieces cs
  return ((assemble pieces).map String.ofList, rest)

/-- Digits of which there must be one. -/
def takeDigits (cs : List Char) : Option (List Char × List Char) :=
  match cs.takeWhile (fun c => (Decimal.digitValue? c).isSome) with
  | [] => none
  | ds => some (ds, cs.drop ds.length)

/-- The whole part of a number: a zero alone, or digits that do not start with one. -/
def takeWhole : List Char → Option (List Char × List Char)
  | '0' :: rest =>
    match rest with
    | c :: _ => if (Decimal.digitValue? c).isSome then none else some (['0'], rest)
    | [] => some (['0'], [])
  | cs => takeDigits cs

/-- A point with digits, or nothing. -/
def takeFraction : List Char → Option (List Char × List Char)
  | '.' :: rest => (takeDigits rest).map fun (ds, rest) => ('.' :: ds, rest)
  | cs => some ([], cs)

/-- An exponent with a sign or none, or nothing. -/
def takeExponent : List Char → Option (List Char × List Char)
  | [] => some ([], [])
  | e :: rest =>
    if e = 'e' ∨ e = 'E' then
      match rest with
      | s :: rest' =>
        if s = '+' ∨ s = '-' then (takeDigits rest').map fun (ds, r) => (e :: s :: ds, r)
        else (takeDigits rest).map fun (ds, r) => (e :: ds, r)
      | [] => none
    else some ([], e :: rest)

/-- The text of a number without its sign. -/
def takeMagnitude (cs : List Char) : Option (List Char × List Char) := do
  let (whole, rest) ← takeWhole cs
  let (fraction, rest) ← takeFraction rest
  let (exponent, rest) ← takeExponent rest
  return (whole ++ fraction ++ exponent, rest)

/-- The text of a number. -/
def takeNumber : List Char → Option (List Char × List Char)
  | '-' :: rest => (takeMagnitude rest).map fun (ds, rest) => ('-' :: ds, rest)
  | cs => takeMagnitude cs

/-- A word and what follows it. -/
def takeWord (word : List Char) (cs : List Char) : Option (List Char) :=
  if word.isPrefixOf cs then some (cs.drop word.length) else none

mutual

/-- One value with white space before it. The first argument bounds the nesting and the number of
elements together. -/
def readValue : Nat → List Char → Option (Value × List Char)
  | 0, _ => none
  | fuel + 1, cs =>
    match skip cs with
    | '"' :: rest => (readString rest).map fun (s, rest) => (.string s, rest)
    | '[' :: rest =>
      match skip rest with
      | ']' :: rest => some (.array [], rest)
      | rest => (readElements fuel rest).map fun (vs, rest) => (.array vs, rest)
    | '\x7b' :: rest =>
      match skip rest with
      | '\x7d' :: rest => some (.object [], rest)
      | rest => (readMembers fuel rest).map fun (ms, rest) => (.object ms, rest)
    | 'n' :: rest => (takeWord "ull".toList rest).map fun rest => (.null, rest)
    | 't' :: rest => (takeWord "rue".toList rest).map fun rest => (.bool true, rest)
    | 'f' :: rest => (takeWord "alse".toList rest).map fun rest => (.bool false, rest)
    | rest => (takeNumber rest).map fun (ds, rest) => (.number (String.ofList ds), rest)

/-- Elements up to the closing bracket. -/
def readElements : Nat → List Char → Option (List Value × List Char)
  | 0, _ => none
  | fuel + 1, cs => do
    let (v, rest) ← readValue fuel cs
    match skip rest with
    | ',' :: rest =>
      let (vs, rest) ← readElements fuel rest
      return (v :: vs, rest)
    | ']' :: rest => return ([v], rest)
    | _ => none

/-- Members up to the closing brace. -/
def readMembers : Nat → List Char → Option (List (Option String × Value) × List Char)
  | 0, _ => none
  | fuel + 1, cs =>
    match skip cs with
    | '"' :: rest => do
      let (k, rest) ← readString rest
      match skip rest with
      | ':' :: rest =>
        let (v, rest) ← readValue fuel rest
        match skip rest with
        | ',' :: rest =>
          let (ms, rest) ← readMembers fuel rest
          return ((k, v) :: ms, rest)
        | '\x7d' :: rest => return ([(k, v)], rest)
        | _ => none
      | _ => none
    | _ => none

end

/-- The value that a text holds. -/
def read? (cs : List Char) : Option Value := do
  let (v, rest) ← readValue (2 * cs.length + 2) cs
  if (skip rest).isEmpty then return v else none

end LinkTuner.Json

/-!
# The words of a command line

A word that begins with two hyphens names an option, and so does a word of one hyphen and a letter.
The value of an option is attached to its word or is the next word, which then must not look like an
option itself. A value is taken into the settings when the next option is named, so a fault in it
shows before anything that comes after.
-/

namespace LinkTuner.CommandLine

/-- What a word is by its looks. -/
inductive Word where
  | plain (text : String)
  | long (name : String) (attached : Option String)
  | short (name : Char) (attached : Option String)
  /-- Two hyphens, after which no word is an option. -/
  | terminator
  deriving DecidableEq, Repr

/-- The name of an option and the value after an equals sign. -/
def longWord (cs : List Char) : Word :=
  .long (String.ofList (cs.takeWhile (· != '=')))
    (match cs.dropWhile (· != '=') with
      | [] => none
      | _ :: value => some (String.ofList value))

/-- The value attached to the letter of an option, with or without an equals sign. -/
def shortValue : List Char → Option String
  | [] => none
  | '=' :: value => some (String.ofList value)
  | value => some (String.ofList value)

/-- The looks of a word. A single hyphen is plain text. -/
def Word.ofText (s : String) : Word :=
  match s.toList with
  | ['-', '-'] => .terminator
  | '-' :: '-' :: cs => longWord cs
  | '-' :: c :: cs => .short c (shortValue cs)
  | _ => .plain s

/-- The options of a command: how they are named, and how the value of one is taken into the
settings. A value that cannot be read, or a second one for the same option, is not taken. -/
structure Grammar (O S : Type) where
  long? : String → Option O
  short? : Char → Option O
  take? : S → O → String → Option S

/-- Why a command line is not followed. -/
inductive Refusal where
  /-- It asks for help. -/
  | help
  /-- It is wrong. -/
  | misuse
  deriving DecidableEq, Repr

/-- What has been read of a command line. -/
structure Draft (O S : Type) where
  settings : S
  /-- The option named last, as long as its value is not taken, and the value if it is there. -/
  last : Option (O × Option String)

namespace Draft

variable {O S : Type}

/-- Nothing read yet. -/
def start (settings : S) : Draft O S := ⟨settings, none⟩

/-- Whether the next word is the value of an option. -/
def awaits (d : Draft O S) : Bool :=
  match d.last with
  | some (_, none) => true
  | _ => false

/-- Taking the value of the last option. -/
def settle (g : Grammar O S) (d : Draft O S) : Except Refusal (Draft O S) :=
  match d.last with
  | none => .ok d
  | some (_, none) => .error .misuse
  | some (o, some value) =>
    match g.take? d.settings o value with
    | some settings => .ok (start settings)
    | none => .error .misuse

/-- An option is named. An attached value is taken at once. -/
def option (g : Grammar O S) (d : Draft O S) (o : Option O) (attached : Option String) :
    Except Refusal (Draft O S) := do
  match o, attached with
  | none, _ => throw .misuse
  | some o, none => return { ← d.settle g with last := some (o, none) }
  | some o, some value => Draft.settle g { ← d.settle g with last := some (o, some value) }

/-- Help is asked for. -/
def refuse {α : Type} (g : Grammar O S) (d : Draft O S) : Except Refusal α := do
  discard (d.settle g)
  throw .help

end Draft

/-- Reading words up to the first that is a command; the words after it are left. -/
def scan {O S : Type} (g : Grammar O S) (isCommand : String → Bool) :
    Draft O S → List String → Except Refusal (Draft O S × List String)
  | d, [] => .ok (d, [])
  | d, word :: rest =>
    if !d.awaits && isCommand word then .ok (d, word :: rest)
    else match Word.ofText word with
      | .terminator => if rest.isEmpty then .ok (d, []) else .error .misuse
      | .long "help" none | .short 'h' _ => d.refuse g
      | .long name attached => do scan g isCommand (← d.option g (g.long? name) attached) rest
      | .short name attached => do scan g isCommand (← d.option g (g.short? name) attached) rest
      | .plain value =>
        match d.last with
        | some (o, none) => scan g isCommand ⟨d.settings, some (o, some value)⟩ rest
        | _ => .error .misuse

/-- The settings of a command that no other command follows. -/
def settingsOf {O S : Type} (g : Grammar O S) (settings : S) (words : List String) :
    Except Refusal S := do
  let (d, _) ← scan g (fun _ => false) (.start settings) words
  return (← d.settle g).settings

end LinkTuner.CommandLine

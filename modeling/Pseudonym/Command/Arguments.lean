/-
# Arguments

The command that a list of arguments asks for. The first argument names the
command. What follows are its options and its positional arguments, in any
order; an option is written `--name value`, `--name=value`, `-n value`,
`-nvalue` or `-n=value`, and everything after `--` is positional.

The value of an option and a positional argument are held back until the next
argument is looked at, and only then checked. So an option that is not known is
found before a bad value right in front of it, while a request for help comes
too late for that.
-/
import Pseudonym.Names.Registry

namespace Pseudonym

/-- What to obfuscate and how. -/
structure Options where
  input : String
  output : Option String
  config : Option String
  mapping : Option String
  numbering : Option Numbering
  deriving DecidableEq, Repr

/-- What the program can be asked to do. -/
inductive Command where
  | obfuscate (options : Options)
  | version
  deriving DecidableEq, Repr

/-- Why some arguments name nothing that can be run. -/
inductive Usage where
  /-- Help was asked for. -/
  | help
  /-- The version was asked for. -/
  | version
  | noArguments
  | unknownCommand
  | missingArgument
  | unknownArgument
  | badValue
  /-- A value for an option that takes none. -/
  | needlessValue
  /-- An option that was given twice. -/
  | repeatedOption
  deriving DecidableEq, Repr

/-- Whether the arguments are a request, and no mistake. -/
def Usage.isRequest : Usage → Bool
  | .help => true
  | .version => true
  | _ => false

/-- The exit code where no command is run. -/
def Usage.exitCode (u : Usage) : Nat := if u.isRequest then 0 else 2

namespace Arguments

/-- The shape of an argument. -/
inductive Word where
  /-- The two dashes after which everything is positional. -/
  | escape
  | long (name : String) (value : Option String)
  | short (letter : Char) (rest : List Char)
  | plain
  deriving DecidableEq, Repr

/-- The name of a long option, and the value after the first equals sign. -/
def Word.ofLong (chars : List Char) : Word :=
  .long (.ofList (chars.takeWhile (· != '=')))
    (match chars.dropWhile (· != '=') with
      | [] => none
      | _ :: value => some (.ofList value))

/-- The shape of an argument. A single dash is a plain word. -/
def Word.of (argument : String) : Word :=
  match argument.toList with
  | ['-', '-'] => .escape
  | '-' :: '-' :: rest => .ofLong rest
  | '-' :: letter :: rest => .short letter rest
  | _ => .plain

/-- What a value is for. -/
inductive Slot where
  | input
  | output
  | config
  | mapping
  | numbering
  deriving DecidableEq, Repr

/-- What an option does. -/
inductive Flag where
  | request (usage : Usage)
  | takes (slot : Slot)
  deriving DecidableEq, Repr

/-- The options and the positional arguments of a command. -/
structure Form where
  long : List (String × Flag)
  short : List (Char × Flag)
  positional : List Slot

/-- The requests that can be made anywhere, with their letters. -/
def requests : List (String × Char × Usage) := [("help", 'h', .help), ("version", 'V', .version)]

/-- The form of a command that takes nothing. -/
def Form.bare : Form :=
  ⟨requests.map fun r => (r.1, .request r.2.2), requests.map fun r => (r.2.1, .request r.2.2), []⟩

/-- The form of the command that obfuscates. -/
def Form.obfuscate : Form :=
  ⟨bare.long ++
      [("config", .takes .config), ("mapping", .takes .mapping),
        ("enum-values", .takes .numbering)],
    bare.short ++ [('c', .takes .config), ('m', .takes .mapping)],
    [.input, .output]⟩

/-- The values found so far, and one that is held back. -/
structure Draft where
  input : Option String
  output : Option String
  config : Option String
  mapping : Option String
  numbering : Option Numbering
  /-- The slot of the last argument, and its value once that is there. -/
  pending : Option (Slot × Option String)
  deriving DecidableEq, Repr

namespace Draft

/-- The draft without any value. -/
def empty : Draft := ⟨none, none, none, none, none, none⟩

/-- Whether there is a value for a slot. -/
def isFilled (d : Draft) : Slot → Bool
  | .input => d.input.isSome
  | .output => d.output.isSome
  | .config => d.config.isSome
  | .mapping => d.mapping.isSome
  | .numbering => d.numbering.isSome

/-- A path is any text but the empty one. -/
def path (value : String) : Except Usage String :=
  if value = "" then .error .badValue else .ok value

/-- Takes a value for a slot. -/
def fill (d : Draft) (slot : Slot) (value : String) : Except Usage Draft :=
  if d.isFilled slot then .error .repeatedOption
  else
    match slot with
    | .input => return { d with input := some (← path value) }
    | .output => return { d with output := some (← path value) }
    | .config => return { d with config := some (← path value) }
    | .mapping => return { d with mapping := some (← path value) }
    | .numbering =>
      match Numbering.ofWord? value with
      | none => .error .badValue
      | some n => .ok { d with numbering := some n }

/-- Takes what is held back. -/
def settle (d : Draft) : Except Usage Draft :=
  match d.pending with
  | none => .ok d
  | some (_, none) => .error .badValue
  | some (slot, some value) => { d with pending := none }.fill slot value

/-- Holds an argument back. -/
def hold (d : Draft) (slot : Slot) (value : Option String) : Except Usage Draft :=
  return { ← d.settle with pending := some (slot, value) }

/-- Looks at an option. A value that is part of the same argument is taken at once. -/
def option (d : Draft) (flag : Flag) (value : Option String) : Except Usage Draft :=
  match flag, value with
  | .request _, some _ => .error .needlessValue
  | .request usage, none => do
    let _ ← d.settle
    .error usage
  | .takes slot, some value => do (← d.settle).fill slot value
  | .takes slot, none => d.hold slot none

end Draft

/-- The value that follows the letter of an option in the same argument. -/
def attached : Flag → List Char → Option String
  | .request _, _ => none
  | .takes _, [] => none
  | .takes _, '=' :: rest => some (.ofList rest)
  | .takes _, rest => some (.ofList rest)

/-- Looks at a positional argument. -/
def position (d : Draft) (argument : String) : List Slot → Except Usage (Draft × List Slot)
  | [] => .error .unknownArgument
  | slot :: left => return (← d.hold slot (some argument), left)

/-- Looks at arguments that may be options. `left` are the slots of the positional arguments
that may still come. -/
def read (form : Form) (d : Draft) (left : List Slot) : List String → Except Usage Draft
  | [] => d.settle
  | argument :: rest =>
    match Word.of argument with
    | .escape => positions d left rest
    | .long name value =>
      match form.long.lookup name with
      | none => .error .unknownArgument
      | some flag => do read form (← d.option flag value) left rest
    | .short letter value =>
      match form.short.lookup letter with
      | none => .error .unknownArgument
      | some flag => do read form (← d.option flag (attached flag value)) left rest
    | .plain =>
      match d.pending with
      | some (slot, none) => read form { d with pending := some (slot, some argument) } left rest
      | _ => do
        let (d, left) ← position d argument left
        read form d left rest
where
  /-- Looks at arguments that are all positional. -/
  positions (d : Draft) (left : List Slot) : List String → Except Usage Draft
    | [] => d.settle
    | argument :: rest => do
      let (d, left) ← position d argument left
      positions d left rest

/-- The options in a draft. -/
def Draft.options (d : Draft) : Except Usage Options :=
  match d.input with
  | none => .error .missingArgument
  | some input => .ok ⟨input, d.output, d.config, d.mapping, d.numbering⟩

/-- The names of all commands. -/
def commands : List String := ["obfuscate", "version", "help"]

/-- What comes of a first argument that is not the name of a command. -/
def leading (argument : String) : Usage :=
  match Word.of argument with
  | .long name value =>
    match requests.find? (·.1 == name), value with
    | none, _ => .unknownArgument
    | some _, some _ => .needlessValue
    | some r, none => r.2.2
  | .short letter _ =>
    match requests.find? (·.2.1 == letter) with
    | none => .unknownArgument
    | some r => r.2.2
  | _ => .unknownCommand

/-- What comes of a request for help on a command. -/
def helpOn : List String → Usage
  | [] => .help
  | [name] => if commands.contains name then .help else .unknownCommand
  | _ => .unknownCommand

end Arguments

open Arguments

/-- The command that some arguments ask for. -/
def Command.ofArguments : List String → Except Usage Command
  | [] => .error .noArguments
  | ["--"] => .error .noArguments
  | "--" :: name :: _ =>
    .error (if commands.contains name then .unknownArgument else .unknownCommand)
  | "help" :: rest => .error (helpOn rest)
  | "version" :: rest => do
    let _ ← Arguments.read .bare .empty [] rest
    .ok .version
  | "obfuscate" :: rest => do
    let d ← Arguments.read .obfuscate .empty Form.obfuscate.positional rest
    .ok (.obfuscate (← d.options))
  | argument :: _ => .error (leading argument)

end Pseudonym

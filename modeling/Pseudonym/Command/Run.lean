/-
# Running a command

What a command does on a host. To obfuscate a file, the input has to be there;
then come the settings, the input's text, its obfuscation, the mapping and at
last the output. Whatever goes wrong ends the run, so that nothing is written
before the text has been obfuscated. The numbering is the one in the options,
else the one in the settings.

How settings are read from a text and how a mapping is made a text is not the
command's own work, and either may fail: the command is given a reader and a
writer (`Formats`). Those of the program are `Formats.usual`.
-/
import Pseudonym.Command.Arguments
import Pseudonym.Command.Settings
import Pseudonym.Command.Status
import Pseudonym.Files.Tree
import Pseudonym.Names.Mapping
import Pseudonym.Obfuscate.Basic

namespace Pseudonym

/-- The reader of settings and the writer of mappings. Where one fails, it says so in words. -/
structure Formats where
  readSettings : String → Except String Settings
  writeMapping : Mapping → Except String String

/-- Settings in TOML and mappings in JSON. -/
def Formats.usual : Formats where
  readSettings text :=
    match Settings.parse? text with
    | some settings => .ok settings
    | none => .error "not the settings of the command"
  writeMapping mapping := .ok mapping.json

/-- Why a command fails. -/
inductive Trouble where
  | noInput (path : String)
  | noSettings (path : String)
  | unreadableSettings (path : String) (error : FileError)
  | badSettings (words : String)
  | file (error : FileError)
  | obfuscation (failure : Failure)
  | badMapping (words : String)
  deriving DecidableEq, Repr

/-- A trouble in words. -/
def Trouble.message : Trouble → String
  | .noInput path => "Input file " ++ path ++ " does not exist"
  | .noSettings path => "Configuration error: Config file not found: " ++ path
  | .unreadableSettings path error =>
    "Configuration error: Failed to read config file " ++ path ++ ": " ++ error.message
  | .badSettings words => "Configuration error: Failed to parse TOML: " ++ words
  | .file error => "IO error: " ++ error.message
  | .obfuscation failure => failure.message
  | .badMapping words => "Failed to serialize mapping: " ++ words

/-- The file with the settings, unless another one is named. -/
def settingsFile : String := "veil.toml"

namespace Host

variable {m : Type → Type} [Monad m] (host : Host m) (formats : Formats)

/-- A result, with its error as a trouble. -/
def orTrouble {ε α : Type} (trouble : ε → Trouble) (result : Except ε α) : ExceptT Trouble m α :=
  ExceptT.mk (pure (result.mapError trouble))

/-- The settings in the file at a path. -/
def loadSettings (path : String) : ExceptT Trouble m Settings := do
  let text ← orTrouble (.unreadableSettings path) (← host.read path)
  orTrouble .badSettings (formats.readSettings text)

/-- The settings for a run. A file that was named has to be there. -/
def settings (named : Option String) : ExceptT Trouble m Settings := do
  match named with
  | some path =>
    if ← host.has path then host.loadSettings formats path else throw (.noSettings path)
  | none =>
    if ← host.has settingsFile then host.loadSettings formats settingsFile else pure .usual

/-- Reports a status line. -/
def status (s : Status) (text : String) : m Unit := host.report (s.line text)

/-- Writes a text to a file. -/
def save (path text : String) : ExceptT Trouble m Unit := do
  orTrouble .file (← host.write path text)

/-- Writes the mapping, if it is wanted. -/
def saveMapping (path : Option String) (r : Registry) : ExceptT Trouble m Unit :=
  match path with
  | none => pure ()
  | some path => do
    let text ← orTrouble .badMapping (formats.writeMapping r.mapping)
    host.save path text
    host.status .info ("Wrote name mapping to " ++ path)

/-- Writes the output, or prints it if there is no file for it. -/
def saveOutput (path : Option String) (output : String) : ExceptT Trouble m Unit :=
  match path with
  | none => host.print output
  | some path => do
    if ← host.has path then host.status .warning ("Overwriting " ++ path)
    host.save path output
    host.status .success ("Wrote to " ++ path)

/-- Obfuscates a file. -/
def obfuscate (o : Options) : ExceptT Trouble m Unit := do
  unless ← host.has o.input do throw (.noInput o.input)
  let settings ← host.settings formats o.config
  if o.output.isSome then host.status .info ("Reading " ++ o.input)
  let text ← orTrouble .file (← host.read o.input)
  let numbering := o.numbering.getD settings.numbering
  let (output, r) ← orTrouble .obfuscation (Pseudonym.obfuscate numbering text)
  host.saveMapping formats o.mapping r
  host.saveOutput o.output output

/-- Prints what is known about the program. -/
def version : m Unit :=
  host.print (heading "Veil" ++ pair "Version" "0.1.0" ++ pair "Binary" "veil" ++
    pair "Build" "debug" ++ pair "Enum values" Settings.usual.numbering.word)

/-- Does what a command says. -/
def perform (command : Command) : ExceptT Trouble m Unit :=
  match command with
  | .obfuscate options => host.obfuscate formats options
  | .version => host.version

/-- Runs a command, reports what goes wrong, and gives the exit code. -/
def run (command : Command) : m Nat := do
  match ← (host.perform formats command).run with
  | .ok () => pure 0
  | .error trouble =>
    host.status .error trouble.message
    pure 1

end Host

/-- Runs a command on a tree of files: the exit code, and the tree afterwards with all that
was printed. -/
def Desk.run (formats : Formats) (command : Command) (tree : FileTree) : Nat × Desk :=
  (Desk.host.run formats command).run (.new tree)

end Pseudonym

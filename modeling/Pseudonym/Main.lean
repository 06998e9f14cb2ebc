/-
# The program

The command on the machine that it is started on. Files are those of the
machine, results go to the standard output and reports to the standard error.
-/
import Pseudonym.Command.Run

namespace Pseudonym

/-- The error that the machine gave. -/
def FileError.ofMachine : IO.Error → FileError
  | .noFileOrDirectory .. => .missing
  | .inappropriateType _ code _ => if code = 20 then .notDirectory else .isDirectory
  | e => .other (toString e)

/-- Does something with a file. -/
def attempt {α : Type} (act : IO α) : IO (Except FileError α) := do
  try return .ok (← act) catch e => return .error (.ofMachine e)

/-- The machine itself. -/
def machine : Host IO where
  has path := return (← attempt (IO.FS.realPath path)).toBool
  read path := do
    match ← attempt (IO.FS.readBinFile path) with
    | .error e => return .error e
    | .ok bytes =>
      match Content.ofBytes bytes.toList with
      | .text s => return .ok s
      | .binary _ => return .error .notText
  write path text := attempt (IO.FS.writeFile path text)
  print text := do (← IO.getStdout).putStr text
  report text := do (← IO.getStderr).putStr text

/-- How the program is used. -/
def manual : String :=
  "Usage: veil <COMMAND>\n\nCommands:\n" ++
    "  obfuscate <INPUT> [OUTPUT] [-c <CONFIG>] [-m <MAPPING>] " ++
    "[--enum-values <per-enum|global>]\n" ++
    "  version\n  help\n"

/-- What to print for a usage. -/
def Usage.text : Usage → String
  | .version => "veil 0.1.0\n"
  | .help => manual
  | .noArguments => manual
  | .unknownCommand => "error: unrecognized subcommand\n\n" ++ manual
  | .missingArgument => "error: an argument is missing\n\n" ++ manual
  | .unknownArgument => "error: unexpected argument\n\n" ++ manual
  | .badValue => "error: invalid value\n\n" ++ manual
  | .needlessValue => "error: unexpected value\n\n" ++ manual
  | .repeatedOption => "error: an option cannot be used twice\n\n" ++ manual

end Pseudonym

open Pseudonym

/-- Runs the command that the arguments ask for. -/
def main (arguments : List String) : IO UInt32 := do
  match Command.ofArguments arguments with
  | .ok command => return (← machine.run .usual command).toUInt32
  | .error usage =>
    if usage.isRequest then machine.print usage.text else machine.report usage.text
    return usage.exitCode.toUInt32

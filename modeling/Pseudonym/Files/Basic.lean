/-
# Files

What a file holds, what can go wrong with it, and what the command needs of
the machine it runs on: to ask for files, to read and write them, and to print.
The command is written for any host, so that it runs on a real one and can
also be followed on a tree of files that is a plain value.
-/

namespace Pseudonym

/-- What a file holds: a text, or bytes that are no text in UTF-8. -/
inductive Content where
  | text (s : String)
  | binary (bytes : List UInt8)
  deriving DecidableEq, Repr

/-- What some bytes are as the content of a file. -/
def Content.ofBytes (bytes : List UInt8) : Content :=
  match String.fromUTF8? ⟨bytes.toArray⟩ with
  | some s => .text s
  | none => .binary bytes

/-- Why a file cannot be read or written. -/
inductive FileError where
  /-- There is no such file, or no such directory on the way to it. -/
  | missing
  /-- A file stands on the way, where a directory is needed. -/
  | notDirectory
  /-- A directory stands where a file is needed. -/
  | isDirectory
  /-- The path, or one of the names in it, is too long. -/
  | nameTooLong
  /-- The path has a zero character in it. -/
  | zeroInName
  /-- The file holds no text. -/
  | notText
  /-- Anything else, in the words of the host. -/
  | other (words : String)
  deriving DecidableEq, Repr

/-- An error in words. -/
def FileError.message : FileError → String
  | .missing => "No such file or directory (os error 2)"
  | .notDirectory => "Not a directory (os error 20)"
  | .isDirectory => "Is a directory (os error 21)"
  | .nameTooLong => "File name too long (os error 36)"
  | .zeroInName => "file name contained an unexpected NUL byte"
  | .notText => "stream did not contain valid UTF-8"
  | .other words => words

/-- What the command needs of the machine that it runs on. -/
structure Host (m : Type → Type) where
  /-- Whether there is a file or a directory at a path. -/
  has : String → m Bool
  /-- The text of the file at a path. -/
  read : String → m (Except FileError String)
  /-- Makes a text the content of the file at a path. -/
  write : String → String → m (Except FileError Unit)
  /-- Prints a text as a result. -/
  print : String → m Unit
  /-- Prints a text for whoever watches the run. -/
  report : String → m Unit

end Pseudonym

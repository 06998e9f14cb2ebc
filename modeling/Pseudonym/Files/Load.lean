/-
# Schema files

A schema can be read from a file. A file that cannot be read at all is one
fault, whatever the reason; a text that is no schema is another.
-/
import Pseudonym.Files.Tree
import Pseudonym.Schema.Parser

namespace Pseudonym

/-- Why a file gives no schema. -/
inductive LoadError where
  | unreadable (path : String)
  | text (error : SyntaxError)
  deriving DecidableEq, Repr

/-- The code that an error is reported under. -/
def LoadError.code : LoadError → String
  | .unreadable _ => "veil::schema::io_error"
  | .text _ => SyntaxError.code

/-- An error in words. -/
def LoadError.message : LoadError → String
  | .unreadable path => "failed to read file: " ++ path
  | .text error => error.message

/-- The schema in the file at a path. -/
def FileTree.loadSchema (t : FileTree) (path : String) : Except LoadError Schema :=
  match t.read path with
  | .error _ => .error (.unreadable path)
  | .ok text => (Schema.parse text).mapError .text

end Pseudonym

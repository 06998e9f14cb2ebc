/-
# Normal form

A text of a schema is brought into normal form by reading it and writing what
was read.
-/
import Pseudonym.Schema.Parser
import Pseudonym.Schema.Printer

namespace Pseudonym

/-- The normal form of the text of a schema. -/
def normalize (text : String) : Except SyntaxError String := do
  let s ← Schema.parse text
  .ok s.render

end Pseudonym

/-
# Syntax errors

A syntax error says where a text stops being a schema and which rules were
expected there.
-/
import Pseudonym.Schema.Grammar

namespace Pseudonym

/-- A fault in the text of a schema: the bytes it covers, its line, and what is wrong. -/
structure SyntaxError where
  offset : Nat
  len : Nat
  line : Nat
  reason : String
  deriving DecidableEq, Repr

namespace SyntaxError

/-- The code that a syntax error is reported under. -/
def code : String := "veil::schema::syntax_error"

/-- The error in words. -/
def message (e : SyntaxError) : String :=
  s!"syntax error in schema at line {e.line}: {e.reason}"

/-- An error that covers a span. -/
def ofSpan (span : Span) (reason : String) : SyntaxError :=
  ⟨span.start, span.len, span.line, reason⟩

/-- Names with "or" before the last: `a`, `a or b`, `a, b, or c`. -/
def enumerate (names : List String) : String :=
  match names with
  | [] => ""
  | [a] => a
  | [a, b] => s!"{a} or {b}"
  | _ => ", ".intercalate names.dropLast ++ ", or " ++ names.getLastD ""

/-- The names of some rules, each once, in the order of the grammar. -/
def listing (rules : List Rule) : String :=
  enumerate ((Rule.all.filter (rules.contains ·)).map (·.name))

/-- What the furthest attempts say about the text. -/
def reasonOf (a : Peg.Attempts Rule) : String :=
  match a.unexpected, a.expected with
  | [], [] => "unknown parsing error"
  | [], expected => "expected " ++ listing expected
  | unexpected, [] => "unexpected " ++ listing unexpected
  | unexpected, expected => "unexpected " ++ listing unexpected ++ "; expected " ++ listing expected

/-- The error at the furthest place that was reached. -/
def ofAttempts (a : Peg.Attempts Rule) : SyntaxError :=
  ⟨a.place.offset, 0, a.place.line, reasonOf a⟩

end SyntaxError

end Pseudonym

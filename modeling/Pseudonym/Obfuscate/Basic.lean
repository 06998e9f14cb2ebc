/-
# Obfuscation

A schema is obfuscated by declaring everything in it in an empty registry and
then resolving its references there. The result is the new schema and the
registry, or the first fault that was found.
-/
import Pseudonym.Obfuscate.References
import Pseudonym.Schema.Parser
import Pseudonym.Schema.Printer

namespace Pseudonym

/-- The schema under new names, and the registry of these names. -/
def Schema.obfuscate (numbering : Numbering) (s : Schema) : Except Fault (Schema × Registry) := do
  let (declared, r) ← s.declare (.new numbering)
  .ok (← declared.resolve r, r)

/-- Why a text cannot be obfuscated: it is no schema, or the schema has a fault. -/
inductive Failure where
  | text (error : SyntaxError)
  | schema (fault : Fault)
  deriving DecidableEq, Repr

namespace Failure

/-- A failure in words. -/
def message : Failure → String
  | .text error => error.message
  | .schema fault => fault.message

/-- The line of a failure. -/
def line? : Failure → Option Nat
  | .text error => some error.line
  | .schema fault => fault.line

/-- Gives a failure its line, unless it has one. -/
def atLine (line : Nat) : Failure → Failure
  | .text error => .text error
  | .schema fault => .schema (fault.atLine line)

end Failure

/-- The text of an obfuscated schema, and the registry of its names. -/
def obfuscate (numbering : Numbering) (text : String) : Except Failure (String × Registry) := do
  let s ← (Schema.parse text).mapError .text
  let (s, r) ← (s.obfuscate numbering).mapError .schema
  .ok (s.render, r)

/-- What one of several runs in a row gave: its text, and whether that differs from what the
run was given. -/
structure Round where
  output : String
  changed : Bool
  deriving DecidableEq, Repr

/-- Obfuscates a text, then the result, and so on, `n` times or up to the first failure. -/
def obfuscateRounds : Nat → String → List (Except Failure Round)
  | 0, _ => []
  | n + 1, text =>
    match obfuscate .perEnum text with
    | .error e => [.error e]
    | .ok (output, _) => .ok ⟨output, output != text⟩ :: obfuscateRounds n output

end Pseudonym

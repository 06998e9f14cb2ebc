/-
# Grammars of parsing expressions

A grammar gives every rule an expression and a kind. Choice is ordered, and a
repetition takes as many rounds as it can. Some characters are blanks: in the
spaced mode they may stand between the parts of a sequence and between the
rounds of a repetition, in the other two modes nothing may stand there. In the
atomic mode, moreover, a rule that is called leaves no node.
-/
import Pseudonym.Text.Place

namespace Pseudonym
namespace Peg

/-- The classes of single characters that an expression can ask for. -/
inductive CharClass where
  | any
  | letter
  | digit
  | alphanumeric
  deriving DecidableEq, Repr

/-- Whether a character belongs to a class. Letters and digits are ASCII ones. -/
def CharClass.holds : CharClass → Char → Bool
  | .any, _ => true
  | .letter, c => c.isAlpha
  | .digit, c => c.isDigit
  | .alphanumeric, c => c.isAlphanum

/-- A parsing expression over rules of type `R`. -/
inductive Expr (R : Type) where
  /-- The word itself. -/
  | word (w : List Char)
  /-- One character of a class. -/
  | one (cls : CharClass)
  /-- Nothing, at the start of the text. -/
  | start
  /-- Nothing, at the end of the text. -/
  | finish
  /-- What a rule reads. -/
  | call (r : R)
  /-- One expression after the other. -/
  | seq (first second : Expr R)
  /-- The second expression only where the first one fails. -/
  | alt (first second : Expr R)
  /-- The expression, or nothing where it fails. -/
  | opt (body : Expr R)
  /-- The expression as often as it goes on. -/
  | many (body : Expr R)
  /-- Nothing, where the expression would fail. -/
  | notAhead (body : Expr R)
  deriving DecidableEq, Repr

/-- Where blanks may stand, and whether called rules leave nodes. -/
inductive Mode where
  /-- Blanks are skipped. -/
  | spaced
  /-- No blanks are skipped. -/
  | compact
  /-- No blanks are skipped, and called rules leave no nodes. -/
  | atomic
  deriving DecidableEq, Repr

/-- How a rule treats the mode of its caller. -/
inductive RuleKind where
  /-- The body is read in the caller's mode. -/
  | plain
  /-- The body is read in the atomic mode; for its caller the rule is plain. -/
  | atomic
  /-- The rule as a whole is read in the compact mode. -/
  | compact
  /-- The rule as a whole is read in the spaced mode. -/
  | spaced
  deriving DecidableEq, Repr

/-- The mode in which a called rule counts as attempted and leaves its node. -/
def RuleKind.outerMode : RuleKind → Mode → Mode
  | .plain, m => m
  | .atomic, m => m
  | .compact, _ => .compact
  | .spaced, _ => .spaced

/-- The mode in which the body of a called rule is read. -/
def RuleKind.innerMode : RuleKind → Mode → Mode
  | .plain, m => m
  | .atomic, _ => .atomic
  | .compact, _ => .compact
  | .spaced, _ => .spaced

/-- A grammar over rules of type `R`. -/
structure Grammar (R : Type) where
  /-- The blanks. -/
  blank : Char → Bool
  /-- Every rule once, in the order in which messages list them. -/
  rules : List R
  kind : R → RuleKind
  body : R → Expr R

/-- What a rule read: where, which characters, and the nodes of the rules it called. -/
structure Node (R : Type) where
  rule : R
  span : Span
  text : List Char
  children : List (Node R)

end Peg
end Pseudonym

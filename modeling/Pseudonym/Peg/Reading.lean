/-
# Reading a text by a grammar

A reader takes the way it is called, a cursor and the attempts so far, and
gives the cursor behind what it read with the nodes of the rules it called, or
nothing where it fails, and the attempts afterwards. The cursor and the nodes
never depend on the attempts.

Every expression has a reader, given readers for the rules. A grammar's reader
is this step applied a bounded number of times: a chain of calls that reads
nothing calls no rule twice, so the number of rules times one more than the
length of the text is enough for a grammar without left recursion. What is not
a rule is read in the same way (`Grammar.run`).
-/
import Pseudonym.Peg.Attempts

namespace Pseudonym
namespace Peg

/-- Whether the text is looked at only, and whether a match there is a failure. -/
inductive Look where
  | consuming
  | ahead
  | negative
  deriving DecidableEq, Repr

/-- Under a negation: what must match must not, and the other way round. -/
def Look.negate : Look → Look
  | .consuming => .negative
  | .ahead => .negative
  | .negative => .ahead

/-- How a reader is called. -/
structure Setting where
  mode : Mode
  look : Look
  deriving DecidableEq, Repr

/-- What a reader gives: the cursor behind what it read and the nodes, if it succeeds, and
the attempts. -/
structure Outcome (R : Type) where
  result : Option (Cursor × List (Node R))
  attempts : Attempts R

/-- A reader. -/
abbrev Reader (R : Type) := Setting → Cursor → Attempts R → Outcome R

namespace Reader

variable {R : Type}

/-- Reads what a partial function on cursors steps over, and leaves no nodes. -/
def step (f : Cursor → Option Cursor) : Reader R := fun _ c a => ⟨(f c).map (·, []), a⟩

/-- In the spaced mode, the cursor behind the blanks. -/
def skipBlanks (blank : Char → Bool) (s : Setting) (c : Cursor) : Cursor :=
  match s.mode with
  | .spaced => c.skipWhile blank
  | .compact => c
  | .atomic => c

/-- Skips blanks, then reads. -/
def afterBlanks (blank : Char → Bool) (p : Reader R) : Reader R := fun s c a =>
  p s (skipBlanks blank s c) a

/-- One reader after the other. -/
def seq (p q : Reader R) : Reader R := fun s c a =>
  match p s c a with
  | ⟨none, a₁⟩ => ⟨none, a₁⟩
  | ⟨some (c₁, before), a₁⟩ =>
    match q s c₁ a₁ with
    | ⟨none, a₂⟩ => ⟨none, a₂⟩
    | ⟨some (c₂, after), a₂⟩ => ⟨some (c₂, before ++ after), a₂⟩

/-- The second reader only where the first one fails. -/
def alt (p q : Reader R) : Reader R := fun s c a =>
  match p s c a with
  | ⟨none, a₁⟩ => q s c a₁
  | ⟨some r, a₁⟩ => ⟨some r, a₁⟩

/-- Nothing is read where the reader fails. -/
def opt (p : Reader R) : Reader R := fun s c a =>
  match p s c a with
  | ⟨none, a₁⟩ => ⟨some (c, []), a₁⟩
  | ⟨some r, a₁⟩ => ⟨some r, a₁⟩

/-- At most `n` rounds of a reader. -/
def rounds (p : Reader R) : Nat → Reader R
  | 0 => fun _ c a => ⟨some (c, []), a⟩
  | n + 1 => (p.seq (rounds p n)).opt

/-- As many rounds as there are, up to one more than `n`, with blanks between them. -/
def many (blank : Char → Bool) (n : Nat) (p : Reader R) : Reader R :=
  (p.seq (rounds (p.afterBlanks blank) n)).opt

/-- Succeeds, without reading, where the reader fails. -/
def notAhead (p : Reader R) : Reader R := fun s c a =>
  match p { s with look := s.look.negate } c a with
  | ⟨none, a₁⟩ => ⟨some (c, []), a₁⟩
  | ⟨some _, a₁⟩ => ⟨none, a₁⟩

/-- A rule around the reader of its body: it leaves a node, and is remembered as attempted
where it goes wrong. In the atomic mode it does neither. -/
def rule (kind : RuleKind) (r : R) (body : Reader R) : Reader R := fun s c a =>
  match body { s with mode := kind.innerMode s.mode } c a with
  | ⟨none, a₁⟩ =>
    ⟨none,
      if kind.outerMode s.mode = .atomic ∨ s.look = .negative then a₁
      else a₁.record a r c.place false⟩
  | ⟨some (c₁, children), a₁⟩ =>
    ⟨some (c₁,
      if kind.outerMode s.mode = .atomic then []
      else [⟨r, .between c.place c₁.place, c.textUpTo c₁, children⟩]),
      if kind.outerMode s.mode = .atomic ∨ s.look ≠ .negative then a₁
      else a₁.record a r c.place true⟩

end Reader

/-- The reader of an expression, given the readers of the rules it calls. Repetitions stop
after `n + 1` rounds. -/
def Expr.reader {R : Type} (blank : Char → Bool) (n : Nat) (rules : R → Reader R) :
    Expr R → Reader R
  | .word w => .step (Cursor.word? w)
  | .one cls => .step (Cursor.one? cls.holds)
  | .start => .step fun c => if c.place.offset = 0 then some c else none
  | .finish => .step fun c => if c.rest.isEmpty then some c else none
  | .call r => rules r
  | .seq p q => (p.reader blank n rules).seq ((q.reader blank n rules).afterBlanks blank)
  | .alt p q => (p.reader blank n rules).alt (q.reader blank n rules)
  | .opt p => (p.reader blank n rules).opt
  | .many p => (p.reader blank n rules).many blank n
  | .notAhead p => (p.reader blank n rules).notAhead

namespace Grammar

variable {R : Type}

/-- The reader of a rule, for at most `n` calls inside one another. -/
def reader (g : Grammar R) : Nat → R → Reader R
  | 0, _ => fun _ _ a => ⟨none, a⟩
  | n + 1, r => .rule (g.kind r) r ((g.body r).reader g.blank n (g.reader n))

/-- Reads a rule from the start of a text. -/
def read (g : Grammar R) (r : R) (text : List Char) : Outcome R :=
  g.reader (g.rules.length * (text.length + 1)) r ⟨.spaced, .consuming⟩ (.ofText text) .none

end Grammar

/-! ### Parts of a rule -/

/-- What is to be read: an expression, or further rounds of one. -/
inductive Goal (R : Type) where
  | expr (e : Expr R)
  | more (e : Expr R)

/-- The reader of what is to be read, with `n` calls inside one another and `n` rounds. -/
def Goal.reader {R : Type} (g : Grammar R) (n : Nat) : Goal R → Reader R
  | .expr e => e.reader g.blank n (g.reader n)
  | .more e => .rounds ((e.reader g.blank n (g.reader n)).afterBlanks g.blank) n

namespace Grammar

variable {R : Type}

/-- A bound that is enough at a cursor. -/
def enough (g : Grammar R) (c : Cursor) : Nat :=
  g.rules.length * (c.rest.length + 1) + c.rest.length + 1

/-- Reads with as many calls and rounds as are needed. -/
def run (g : Grammar R) (t : Goal R) : Reader R := fun s c a => t.reader g (g.enough c) s c a

end Grammar

end Peg
end Pseudonym

/-
# The furthest failed attempts

While a text is read, the rules that failed at the furthest place are
remembered, to say what was expected there. A rule that must not match, and
does, is remembered as unexpected. When a rule fails because several rules
that it called failed at its own start, only the outer rule is remembered;
when exactly one of them failed there, that one is more telling and stays.
-/
import Pseudonym.Peg.Basic

namespace Pseudonym
namespace Peg

/-- The furthest place where a rule failed, and the rules that failed there. -/
structure Attempts (R : Type) where
  place : Place
  expected : List R
  unexpected : List R
  deriving DecidableEq, Repr

namespace Attempts

variable {R : Type}

/-- Before anything was attempted. -/
def none : Attempts R := ⟨.origin, [], []⟩

/-- How many rules are remembered at a place. -/
def countAt (a : Attempts R) (p : Place) : Nat :=
  if p.offset = a.place.offset then a.expected.length + a.unexpected.length else 0

/-- Keeps, of the rules at place `p`, only those remembered at `earlier`. A place behind `p`
is given up for `p`, and one ahead of `p` stays. -/
def restartAt (a earlier : Attempts R) (p : Place) : Attempts R :=
  if p.offset = a.place.offset then
    if p.offset = earlier.place.offset then
      { a with
        expected := a.expected.take earlier.expected.length
        unexpected := a.unexpected.take earlier.unexpected.length }
    else { a with expected := [], unexpected := [] }
  else if a.place.offset < p.offset then ⟨p, [], []⟩
  else a

/-- Remembers rule `r` at place `p`, unless the attempts there are further on. -/
def add (a : Attempts R) (r : R) (p : Place) (negative : Bool) : Attempts R :=
  if p.offset = a.place.offset then
    if negative then { a with unexpected := a.unexpected ++ [r] }
    else { a with expected := a.expected ++ [r] }
  else a

/-- Rule `r`, attempted at place `p`, went wrong. What was remembered when it started is
`earlier`, what is remembered now is `a`. -/
def record (a earlier : Attempts R) (r : R) (p : Place) (negative : Bool) : Attempts R :=
  if a.countAt p = earlier.countAt p + 1 then a
  else (a.restartAt earlier p).add r p negative

end Attempts

end Peg
end Pseudonym

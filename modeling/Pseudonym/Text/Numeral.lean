/-
# Numerals

Decimal digits read as numbers.
-/

namespace Pseudonym

/-- The natural number of a nonempty list of decimal digits. -/
def natural? (cs : List Char) : Option Nat :=
  if cs.isEmpty || !cs.all (·.isDigit) then none else some (Nat.ofDigitChars 10 cs 0)

/-- The whole number of decimal digits, with a minus sign in front or without. -/
def wholeNumber? : List Char → Option Int
  | '-' :: digits => (natural? digits).map fun n => -(n : Int)
  | digits => (natural? digits).map fun n => (n : Int)

/-- The 64-bit integer of a whole number, if it fits. -/
def int64? (n : Int) : Option Int64 :=
  if Int64.minValue.toInt ≤ n ∧ n ≤ Int64.maxValue.toInt then some (.ofInt n) else none

end Pseudonym

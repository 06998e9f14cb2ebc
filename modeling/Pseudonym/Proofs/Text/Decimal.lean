/-
# The value of a numeral

Digits have a value by their positions: each one counts as many times as the
power of ten that the digits behind it make. A numeral has the value of the
digits before its point, and of those behind it divided by their power of ten,
with its sign. Nothing here is read from left to right, and nothing can
overflow.

Digits are read as numbers of this value, and a whole number is one of 64 bits
exactly if its value is in their range.
-/
import Mathlib.Algebra.Order.Field.Rat
import Mathlib.Data.List.TakeWhile
import Mathlib.Tactic.Ring
import Pseudonym.Text.Numeral

namespace Pseudonym

/-! ### Values by positions -/

/-- The value of decimal digits, by their positions. -/
def digitsValue : List Char → Nat
  | [] => 0
  | x :: w => (x.toNat - '0'.toNat) * 10 ^ w.length + digitsValue w

/-- The value of digits with a fraction behind a point, or without one. -/
def magnitude (w : List Char) : ℚ :=
  let whole := w.takeWhile (· ≠ '.')
  let fraction := (w.dropWhile (· ≠ '.')).drop 1
  digitsValue whole + digitsValue fraction / 10 ^ fraction.length

/-- The value of a numeral. -/
def decimal : List Char → ℚ
  | '-' :: w => -magnitude w
  | w => magnitude w

variable {w : List Char}

theorem magnitude_of_whole (h : '.' ∉ w) : magnitude w = digitsValue w := by
  have hall : ∀ x ∈ w, decide (x ≠ '.') = true := by
    intro x hx
    exact decide_eq_true (ne_of_mem_of_not_mem hx h)
  have htake : w.takeWhile (· ≠ '.') = w := List.takeWhile_eq_self_iff.mpr hall
  have hdrop : w.dropWhile (· ≠ '.') = [] := List.dropWhile_eq_nil_iff.mpr hall
  rw [magnitude, htake, hdrop]
  simp [digitsValue]

theorem decimal_of_head (h : w.head? ≠ some '-') : decimal w = magnitude w := by
  rw [decimal]
  rintro v rfl
  exact h rfl

/-! ### Reading digits -/

/-- Reading digits from the left, behind some that have been read, gives their value. -/
theorem ofDigitChars_eq (w : List Char) (n : Nat) :
    Nat.ofDigitChars 10 w n = n * 10 ^ w.length + digitsValue w := by
  induction w generalizing n with
  | nil => simp [digitsValue]
  | cons x w ih =>
    calc Nat.ofDigitChars 10 (x :: w) n
      _ = Nat.ofDigitChars 10 w (10 * n + (x.toNat - '0'.toNat)) := Nat.ofDigitChars_cons
      _ = (10 * n + (x.toNat - '0'.toNat)) * 10 ^ w.length + digitsValue w := ih _
      _ = n * 10 ^ (x :: w).length + digitsValue (x :: w) := by
        rw [digitsValue, List.length_cons, pow_succ]
        ring

theorem natural?_of_digits (hne : w ≠ []) (hall : w.all Char.isDigit = true) :
    natural? w = some (digitsValue w) := by
  simp [natural?, hne, hall, ofDigitChars_eq]

theorem natural?_of_point (h : '.' ∈ w) : natural? w = none := by
  have hall : w.all Char.isDigit = false := List.all_eq_false.mpr ⟨'.', h, by decide⟩
  simp [natural?, hall]

/-- Digits have no sign in front. -/
theorem head_ne_minus (hall : w.all Char.isDigit = true) : w.head? ≠ some '-' := by
  intro hhead
  have hdigit := List.all_eq_true.mp hall '-' (List.mem_of_head? hhead)
  cases hdigit

theorem wholeNumber?_of_head (h : w.head? ≠ some '-') :
    wholeNumber? w = (natural? w).map fun n => (n : Int) := by
  rw [wholeNumber?]
  rintro v rfl
  exact h rfl

/-- Digits with a sign or without are read as the whole number of their value. -/
theorem wholeNumber?_of_digits {sign : List Char} (hsign : sign = [] ∨ sign = ['-']) (hne : w ≠ [])
    (hall : w.all Char.isDigit = true) :
    ∃ n : Int, wholeNumber? (sign ++ w) = some n ∧ (n : ℚ) = decimal (sign ++ w) := by
  have hpoint : '.' ∉ w := by
    intro hmem
    have hdigit := List.all_eq_true.mp hall '.' hmem
    cases hdigit
  rcases hsign with rfl | rfl
  · refine ⟨digitsValue w, ?_, ?_⟩
    · rw [List.nil_append, wholeNumber?_of_head (head_ne_minus hall), natural?_of_digits hne hall]
      rfl
    · rw [List.nil_append, decimal_of_head (head_ne_minus hall), magnitude_of_whole hpoint]
      rfl
  · refine ⟨-digitsValue w, ?_, ?_⟩
    · show (natural? w).map (fun n => -(n : Int)) = _
      rw [natural?_of_digits hne hall]
      rfl
    · show _ = -magnitude w
      rw [magnitude_of_whole hpoint]
      simp

/-- What has a point is no whole number. -/
theorem wholeNumber?_of_point (h : '.' ∈ w) : wholeNumber? w = none := by
  by_cases hhead : w.head? = some '-'
  · obtain ⟨v, rfl⟩ := List.head?_eq_some_iff.mp hhead
    have hv : '.' ∈ v := by simpa using h
    show (natural? v).map (fun n => -(n : Int)) = none
    rw [natural?_of_point hv]
    rfl
  · rw [wholeNumber?_of_head hhead, natural?_of_point h]
    rfl

/-- Whole numbers of 64 bits are those between the two powers of two. -/
theorem int64?_eq_some_iff {n : Int} {i : Int64} :
    int64? n = some i ↔ (-2 ^ 63 ≤ n ∧ n ≤ 2 ^ 63 - 1) ∧ i.toInt = n := by
  have hmin : Int64.minValue.toInt = -2 ^ 63 := by decide
  have hmax : Int64.maxValue.toInt = 2 ^ 63 - 1 := by decide
  rw [int64?, hmin, hmax]
  constructor
  · intro h
    split at h
    next hrange =>
      cases h
      exact ⟨hrange, Int64.toInt_ofInt_of_le hrange.1 (by omega)⟩
    next => cases h
  · rintro ⟨hrange, rfl⟩
    rw [if_pos hrange, Int64.ofInt_toInt]

end Pseudonym

/-
# Numbers keep their value

A numeral is read as the 64-bit integer of its value, if it has no point and
its value is in their range, and as the characters it is written in otherwise.
Leading zeros and the sign of a zero are lost in the first case, the value
never is. What a number is written as reads as the same number again.
-/
import Mathlib.Algebra.Order.Ring.Cast
import Pseudonym.Proofs.Syntax.Choice
import Pseudonym.Proofs.Text.Decimal
import Pseudonym.Schema.Printer

namespace Pseudonym

open Peg

variable {ns : List Tree} {w k : List Char}

/-! ### Reading a number -/

theorem derives_number (hw : IsNumeral w) (hk : Apart k) :
    ∃ ns, Parses .spaced (.call .number) (.ofText (w ++ k)) ⟨Place.origin.advance w, k⟩ ns := by
  have hskip : grammar.skip .spaced (.ofText (w ++ k)) = .ofText (w ++ k) :=
    grammar.skip_of_flush ((solid_of_isNumeral hw).append k).flush .spaced .origin
  obtain ⟨c, ns, hread, hc, -⟩ := reads_number (m := .spaced) (l := .atomic) hw hk nofun .origin
  obtain rfl : c = ⟨Place.origin.advance w, k⟩ := hc
  refine ⟨ns, ?_⟩
  rw [← hskip]
  exact hread

/-- The characters that the rule for numbers reads are a numeral. -/
theorem isNumeral_of_derives
    (h : Parses .spaced (.call .number) (.ofText (w ++ k)) ⟨Place.origin.advance w, k⟩ ns) :
    IsNumeral w ∧ Single (Node.Spells .number w) ns := by
  obtain ⟨w', hw', hpast, hns⟩ := of_number h nofun
  obtain rfl : w = w' := List.append_cancel_right hpast.rest
  exact ⟨hw', hns⟩

/-- Where there is a number, it is the value that is read. -/
theorem Value.read?_of_number
    (h : Parses .spaced (.call .number) (.ofText (w ++ k)) ⟨Place.origin.advance w, k⟩ ns) :
    Value.read? (w ++ k) = some (Value.ofNumeral w, k) := by
  obtain ⟨-, n, rfl, hspells⟩ := isNumeral_of_derives h
  refine Value.read?_of_derives (derives_value_of_number h) ?_
  obtain ⟨rule, span, text, children⟩ := n
  obtain ⟨rfl, rfl⟩ := hspells
  rw [Value.ofNode]

/-! ### The value of a number -/

/-- The whole number that a numeral is read as has its value, and a numeral without a point is read
as one. -/
theorem wholeNumber?_of_isNumeral (hw : IsNumeral w) :
    ('.' ∈ w ∧ wholeNumber? w = none) ∨
      '.' ∉ w ∧ ∃ n : Int, wholeNumber? w = some n ∧ (n : ℚ) = decimal w := by
  obtain ⟨sign, whole, fraction, hsign, ⟨hne, hall⟩, hfraction, rfl⟩ := hw
  rcases hfraction with rfl | ⟨digits, -, rfl⟩
  · right
    rw [List.append_nil]
    refine ⟨?_, wholeNumber?_of_digits hsign hne hall⟩
    intro hmem
    rcases List.mem_append.mp hmem with hmem | hmem
    · rcases hsign with rfl | rfl
      · cases hmem
      · exact absurd hmem (by decide)
    · have hdigit := List.all_eq_true.mp hall '.' hmem
      cases hdigit
  · have hmem : '.' ∈ sign ++ (whole ++ '.' :: digits) := by simp
    exact .inl ⟨hmem, wholeNumber?_of_point hmem⟩

namespace Value

/-- A numeral is read as a 64-bit integer exactly if it is a whole number in their range. -/
theorem ofNumeral_cases (hw : IsNumeral w) :
    (('.' ∉ w ∧ -2 ^ 63 ≤ decimal w ∧ decimal w ≤ 2 ^ 63 - 1) ∧
      ∃ i : Int64, ofNumeral w = .int i ∧ (i.toInt : ℚ) = decimal w) ∨
    ¬ ('.' ∉ w ∧ -2 ^ 63 ≤ decimal w ∧ decimal w ≤ 2 ^ 63 - 1) ∧
      ofNumeral w = .number (.ofList w) := by
  rcases wholeNumber?_of_isNumeral hw with ⟨hpoint, hnone⟩ | ⟨hpoint, n, hn, hvalue⟩
  · right
    refine ⟨fun h => h.1 hpoint, ?_⟩
    rw [ofNumeral, hnone, Option.bind_none]
  · have hrange : (-2 ^ 63 ≤ decimal w ∧ decimal w ≤ 2 ^ 63 - 1) ↔ -2 ^ 63 ≤ n ∧ n ≤ 2 ^ 63 - 1 := by
      have hlow : (-2 ^ 63 : ℚ) = ((-2 ^ 63 : Int) : ℚ) := by norm_num
      have hhigh : (2 ^ 63 - 1 : ℚ) = ((2 ^ 63 - 1 : Int) : ℚ) := by norm_num
      rw [← hvalue, hlow, hhigh, Int.cast_le, Int.cast_le]
    rw [ofNumeral, hn, Option.bind_some]
    cases hint : int64? n with
    | some i =>
      obtain ⟨hn, htoInt⟩ := int64?_eq_some_iff.mp hint
      refine .inl ⟨⟨hpoint, hrange.mpr hn⟩, i, rfl, ?_⟩
      rw [htoInt, hvalue]
    | none =>
      refine .inr ⟨?_, rfl⟩
      rintro ⟨-, hdecimal⟩
      have hsome := int64?_eq_some_iff.mpr ⟨hrange.mp hdecimal, Int64.toInt_ofInt_of_le
        (hrange.mp hdecimal).1 (Int.lt_of_le_sub_one (hrange.mp hdecimal).2)⟩
      rw [hint] at hsome
      cases hsome

theorem decimal_toString (i : Int64) : decimal (toString i).toList = i.toInt := by
  obtain ⟨hnumeral, hwhole⟩ := wholeNumber?_toString i.toInt
  rcases wholeNumber?_of_isNumeral hnumeral with ⟨-, hnone⟩ | ⟨-, n, hn, hvalue⟩
  · rw [hnone] at hwhole
    cases hwhole
  · obtain rfl := Option.some.inj (hwhole.symm.trans hn)
    exact hvalue.symm

/-- A numeral is read up to a text that does not go on it. -/
theorem read?_of_isNumeral (hw : IsNumeral w) (hk : Apart k) :
    read? (w ++ k) = some (ofNumeral w, k) := by
  obtain ⟨ns, hread⟩ := derives_number hw hk
  exact read?_of_number hread

/-- What a numeral is read as is written as a numeral of the same value, which reads the same. -/
theorem render_ofNumeral (hw : IsNumeral w) : IsNumeral (ofNumeral w).render.toList ∧
    ofNumeral (ofNumeral w).render.toList = ofNumeral w ∧
    decimal (ofNumeral w).render.toList = decimal w := by
  rcases ofNumeral_cases hw with ⟨-, i, hi, hvalue⟩ | ⟨-, hnumber⟩
  · obtain ⟨hnumeral, hread⟩ := ofNumeral_toString i
    rw [hi, render]
    exact ⟨hnumeral, hread, (decimal_toString i).trans hvalue⟩
  · have htext : (ofNumeral w).render.toList = w := by rw [hnumber, render, String.toList_ofList]
    rw [htext]
    exact ⟨hw, rfl, rfl⟩

/-- **Numbers keep their value.** The rule for numbers reads a text to its end exactly if it is a
numeral. Wherever it reads some characters, they are the value there: the 64-bit integer of their
value, if there is no point among them and the value is in range, and the characters themselves
otherwise. This is written with the same value, and read back as it is. Every 64-bit integer is
read back as it is. -/
theorem read?_number :
    (∀ w, (∃ ns, Derives grammar .spaced (.expr (.call .number)) (.ofText w)
      (some (⟨Place.origin.advance w, []⟩, ns))) ↔ IsNumeral w) ∧
    (∀ w k ns, Derives grammar .spaced (.expr (.call .number)) (.ofText (w ++ k))
        (some (⟨Place.origin.advance w, k⟩, ns)) →
      ∃ v, read? (w ++ k) = some (v, k) ∧
        (('.' ∉ w ∧ -2 ^ 63 ≤ decimal w ∧ decimal w ≤ 2 ^ 63 - 1) →
          ∃ i : Int64, v = .int i ∧ (i.toInt : ℚ) = decimal w) ∧
        (¬ ('.' ∉ w ∧ -2 ^ 63 ≤ decimal w ∧ decimal w ≤ 2 ^ 63 - 1) → v = .number (.ofList w)) ∧
        decimal v.render.toList = decimal w ∧
        ∀ k', Apart k' → read? (v.render.toList ++ k') = some (v, k')) ∧
    ∀ (i : Int64) k, Apart k → read? ((Value.int i).render.toList ++ k) = some (.int i, k) := by
  refine ⟨?_, ?_, ?_⟩
  · intro w
    have hw : Cursor.ofText (w ++ []) = .ofText w := congrArg _ (List.append_nil w)
    constructor
    · rintro ⟨ns, h⟩
      rw [← hw] at h
      exact (isNumeral_of_derives h).1
    · intro hnumeral
      obtain ⟨ns, h⟩ := derives_number (k := []) hnumeral nofun
      rw [hw] at h
      exact ⟨ns, h⟩
  · intro w k ns h
    have hw := (isNumeral_of_derives h).1
    obtain ⟨hnumeral, hagain, hdecimal⟩ := render_ofNumeral hw
    refine ⟨ofNumeral w, read?_of_number h, ?_, ?_, hdecimal, ?_⟩
    · intro hfits
      rcases ofNumeral_cases hw with ⟨-, hint⟩ | ⟨hnot, -⟩
      · exact hint
      · exact absurd hfits hnot
    · intro hnot
      rcases ofNumeral_cases hw with ⟨hfits, -⟩ | ⟨-, hnumber⟩
      · exact absurd hfits hnot
      · exact hnumber
    · intro k' hk'
      rw [read?_of_isNumeral hnumeral hk', hagain]
  · intro i k hk
    obtain ⟨hnumeral, hread⟩ := ofNumeral_toString i
    rw [render, read?_of_isNumeral hnumeral hk, hread]

/-- Digits around the end of the range, with zeros in front. -/
def limit : List Char := "0009223372036854775808".toList

/-- With a minus sign the limit is the least integer, and without one it is none. -/
theorem read?_number_limit :
    (∃ i : Int64, read? ('-' :: limit ++ [')']) = some (.int i, [')']) ∧ (i.toInt : ℚ) = -2 ^ 63) ∧
      read? (limit ++ [')']) = some (.number "0009223372036854775808", [')']) := by
  have hdigits : IsDigits limit := ⟨by decide, by decide⟩
  have hk : Apart [')'] := apart_cons (by decide)
  constructor
  · have hnumeral : IsNumeral ('-' :: limit) :=
      ⟨['-'], limit, [], .inr rfl, hdigits, .inl rfl, by rw [List.append_nil]; rfl⟩
    have hvalue : decimal ('-' :: limit) = -2 ^ 63 := by decide +kernel
    obtain ⟨ns, h⟩ := derives_number hnumeral hk
    obtain ⟨v, hread, hint, -⟩ := read?_number.2.1 _ _ ns h
    obtain ⟨i, rfl, hi⟩ := hint (by rw [hvalue]; decide +kernel)
    exact ⟨i, hread, hi.trans hvalue⟩
  · have hnumeral : IsNumeral limit :=
      ⟨[], limit, [], .inl rfl, hdigits, .inl rfl, by rw [List.append_nil]; rfl⟩
    have hvalue : decimal limit = 2 ^ 63 := by decide +kernel
    obtain ⟨ns, h⟩ := derives_number hnumeral hk
    obtain ⟨v, hread, -, hnumber, -⟩ := read?_number.2.1 _ _ ns h
    rw [hread, hnumber (by rw [hvalue]; decide +kernel)]
    rfl

end Value

end Pseudonym

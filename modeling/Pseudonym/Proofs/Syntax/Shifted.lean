/-
# The same text further down

A text is read in the same way wherever it stands, but for its very start, for
which only a whole schema asks: the places, and with them the furthest failed
attempt, are as many bytes and lines further down. What was attempted before
the text does not count, as soon as a rule fails in it.
-/
import Pseudonym.Proofs.Peg.SideBySide
import Pseudonym.Proofs.Syntax.Bare

namespace Pseudonym

open Peg

variable {bytes lines : Nat}

/-- The place so many bytes and lines further down. -/
def Place.shift (bytes lines : Nat) (p : Place) : Place := ⟨p.offset + bytes, p.line + lines⟩

theorem Place.shift_after (p : Place) (x : Char) :
    (p.after x).shift bytes lines = (p.shift bytes lines).after x := by
  simp only [after, shift, Place.mk.injEq]
  split_ifs <;> omega

theorem Place.shift_advance (w : List Char) (p : Place) :
    (p.advance w).shift bytes lines = (p.shift bytes lines).advance w := by
  induction w generalizing p with
  | nil => rfl
  | cons x w ih => rw [advance_cons, advance_cons, ih, shift_after]

/-! ### Attempts -/

namespace Peg.Attempts

variable {R : Type} {a a' e e' : Attempts R} {p : Place}

/-- The attempts at a place further down. -/
def shift (bytes lines : Nat) (a : Attempts R) : Attempts R :=
  { a with place := a.place.shift bytes lines }

/-- The second attempts are the first ones further down, or they were all made before and the first
ones are none. -/
def Later (bytes lines : Nat) (a a' : Attempts R) : Prop :=
  a' = a.shift bytes lines ∨ a = .none ∧ a'.place.offset < bytes

theorem countAt_none (p : Place) : (none : Attempts R).countAt p = 0 := by
  unfold countAt
  split <;> rfl

theorem countAt_of_lt (h : a.place.offset < p.offset) : a.countAt p = 0 := by
  rw [countAt, if_neg (by omega)]

theorem Later.countAt (h : Later bytes lines a a') (p : Place) :
    a'.countAt (p.shift bytes lines) = a.countAt p := by
  rcases h with rfl | ⟨rfl, hlt⟩
  · simp only [Attempts.countAt, shift, Place.shift, Nat.add_right_cancel_iff]
  · have hp : a'.place.offset < (p.shift bytes lines).offset := by
      simp only [Place.shift]
      omega
    rw [countAt_none, countAt_of_lt hp]

theorem restartAt_none (hp : p.offset = 0 → p = .origin) :
    (none : Attempts R).restartAt e p = ⟨p, [], []⟩ := by
  by_cases hzero : p.offset = 0
  · obtain rfl := hp hzero
    simp [restartAt, none, Place.origin]
  · have hpos : 0 < p.offset := by omega
    simp [restartAt, none, Place.origin, hzero, hpos]

theorem restartAt_of_lt (h : a.place.offset < p.offset) : a.restartAt e p = ⟨p, [], []⟩ := by
  rw [restartAt, if_neg (by omega), if_pos h]

theorem restartAt_shift (he : Later bytes lines e e') :
    (a.shift bytes lines).restartAt e' (p.shift bytes lines) =
      (a.restartAt e p).shift bytes lines := by
  have hoffset : ∀ {b : Attempts R}, (p.shift bytes lines).offset =
      (b.shift bytes lines).place.offset ↔ p.offset = b.place.offset := Nat.add_right_cancel_iff
  by_cases hp : p.offset = a.place.offset
  · rw [restartAt, restartAt, if_pos hp, if_pos (hoffset.mpr hp)]
    rcases he with rfl | ⟨rfl, hlt⟩
    · by_cases he : p.offset = e.place.offset
      · rw [if_pos he, if_pos (hoffset.mpr he)]
        rfl
      · rw [if_neg he, if_neg (mt hoffset.mp he)]
        rfl
    · -- Of what was remembered before the text, nothing is kept on either side.
      rw [if_neg (by simp only [Place.shift]; omega)]
      split <;> rfl
  · rw [restartAt, restartAt, if_neg hp, if_neg (mt hoffset.mp hp)]
    simp only [shift, Place.shift, Nat.add_lt_add_iff_right]
    split <;> rfl

theorem add_shift (r : R) (negative : Bool) :
    (a.shift bytes lines).add r (p.shift bytes lines) negative =
      (a.add r p negative).shift bytes lines := by
  simp only [add, shift, Place.shift, Nat.add_right_cancel_iff]
  split_ifs <;> rfl

/-- A rule that goes wrong in the text leaves attempts that are further down by the same amount. -/
theorem Later.record (ha : Later bytes lines a a') (he : Later bytes lines e e') (r : R)
    (hp : p.offset = 0 → p = .origin) (negative : Bool) :
    a'.record e' r (p.shift bytes lines) negative =
      (a.record e r p negative).shift bytes lines := by
  simp only [Attempts.record, ha.countAt, he.countAt]
  rcases ha with rfl | ⟨rfl, hlt⟩
  · rw [restartAt_shift he, add_shift]
    split_ifs <;> rfl
  · have hlt' : a'.place.offset < (p.shift bytes lines).offset := by
      simp only [Place.shift]
      omega
    have hcount : (none : Attempts R).countAt p ≠ e.countAt p + 1 := by
      rw [countAt_none]
      omega
    rw [if_neg hcount, if_neg hcount, restartAt_none hp, restartAt_of_lt hlt', ← add_shift]
    rfl

end Peg.Attempts

/-! ### Readings -/

/-- The second cursor stands in front of the same text, further down. -/
structure Cursor.Shifted (bytes lines : Nat) (c c' : Cursor) : Prop where
  rest : c'.rest = c.rest
  place : c'.place = c.place.shift bytes lines
  origin : c.place.offset = 0 → c.place = .origin

theorem Cursor.Shifted.past {c c' : Cursor} {w k : List Char} (h : c.Shifted bytes lines c')
    (hk : c.rest = w ++ k) :
    c'.rest = w ++ k ∧ Shifted bytes lines ⟨c.place.advance w, k⟩ ⟨c'.place.advance w, k⟩ := by
  refine ⟨by rw [h.rest, hk], rfl, by rw [h.place, Place.shift_advance], fun hzero => ?_⟩
  obtain ⟨hplace, rfl⟩ := (Place.offset_advance_eq_zero c.place).mp hzero
  exact h.origin hplace

/-- Trees are equal up to offsets, but for the lines between the two. -/
def furtherDown (bytes lines : Nat) : Matching Rule where
  attempts := Attempts.Later bytes lines
  node n n' := n.bare (Span.onLine lines) = n'.bare (Span.onLine 0)

/-- A text is read in the same way further down. -/
def Accord.shifted (bytes lines : Nat) :
    Accord grammar (furtherDown bytes lines) (Cursor.Shifted bytes lines) where
  atom _ e := e.isTerminal && e != .start
  calls r := r != .schema
  skip := by
    refine grammar.skip_beside ?_ ?_
    · intro p p' x k k' _ h
      obtain ⟨hrest, hpast⟩ := h.past (w := [x]) (k := k) rfl
      exact ⟨k, hrest, hpast⟩
    · intro c c' h hflush
      rw [h.rest]
      exact hflush
  record r _ c c' hc a a' e e' negative ha he := by
    rw [hc.place]
    exact .inl (ha.record he r hc.origin negative)
  node r m _ _ c c' w w' c₁ c₁' ns ns' hc hw hw' hc₁ hns := by
    have htext : w' = w := by
      have hrest := hc.rest
      rw [hw.rest, hw'.rest, hc₁.rest] at hrest
      exact List.append_cancel_right hrest
    rw [htext]
    refine Node.bare_congr ?_ rfl hns
    simp only [Span.onLine, Span.between, hc.place, Place.shift, Nat.add_zero]
  atoms m e he l c c' hc := by
    cases e with
    | word w =>
      exact .word (fun hw => hc.rest ▸ hw) fun k hk => ⟨k, hc.past hk⟩
    | one cls =>
      refine .one (fun x k hk hx => ⟨x, k, hc.rest ▸ hk, hx⟩) fun x k hk hx => ?_
      obtain ⟨hrest, hpast⟩ := hc.past (w := [x]) hk
      exact ⟨x, k, hrest, hx, hpast⟩
    | finish => exact .finish (by rw [hc.rest]) hc
    | _ => cases he
  bodies r m hr := by
    cases r <;> first | exact absurd hr (by decide) | rfl

end Pseudonym

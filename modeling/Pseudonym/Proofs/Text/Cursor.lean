/-
# Moving through a text

A cursor that has gone past some characters stands behind them: the text goes
on with what follows them, and the place is that after the last of them. All
that a cursor steps over is of this kind, and the text between the two cursors
is what was stepped over.
-/
import Mathlib.Algebra.GroupWithZero.Nat
import Pseudonym.Text.Place

namespace Pseudonym

namespace Place

/-- The place after some characters. -/
def advance (p : Place) (w : List Char) : Place := w.foldl after p

@[simp] theorem advance_nil (p : Place) : p.advance [] = p := rfl

@[simp] theorem advance_cons (p : Place) (x : Char) (w : List Char) :
    p.advance (x :: w) = (p.after x).advance w := rfl

@[simp] theorem advance_append (p : Place) (w v : List Char) :
    p.advance (w ++ v) = (p.advance w).advance v := List.foldl_append

theorem offset_advance : ∀ (w : List Char) (p : Place),
    (p.advance w).offset = p.offset + (w.map Char.utf8Size).sum
  | [], _ => rfl
  | x :: w, p => by
    rw [advance_cons, offset_advance w, List.map_cons, List.sum_cons]
    simp only [after]
    omega

theorem utf8ByteSize_eq_sum (text : String) :
    text.utf8ByteSize = (text.toList.map Char.utf8Size).sum := by
  have hlist : ∀ w : List Char, (String.ofList w).utf8ByteSize = (w.map Char.utf8Size).sum := by
    intro w
    induction w with
    | nil => rfl
    | cons x w ih =>
      have hcons : String.ofList (x :: w) = String.singleton x ++ String.ofList w := by
        rw [← String.toList_inj]
        simp
      rw [hcons, String.utf8ByteSize_append, String.utf8ByteSize_singleton, ih, List.map_cons,
        List.sum_cons]
  rw [← hlist, String.ofList_toList]

theorem offset_advance_eq_zero (p : Place) {w : List Char} :
    (p.advance w).offset = 0 ↔ p.offset = 0 ∧ w = [] := by
  rw [offset_advance]
  cases w with
  | nil => simp
  | cons x w =>
    have hx := x.utf8Size_pos
    simp
    omega

/-- Only line feeds end lines. -/
theorem line_advance : ∀ (w : List Char) (p : Place),
    (p.advance w).line = p.line + w.count '\n'
  | [], _ => rfl
  | x :: w, p => by
    rw [advance_cons, line_advance w, List.count_cons]
    by_cases hx : x = '\n'
    · simp only [after, hx, ↓reduceIte, beq_self_eq_true]
      omega
    · simp [after, hx]

end Place

namespace Cursor

/-- The second cursor stands behind the characters `w` of the first one. -/
structure Past (w : List Char) (c c' : Cursor) : Prop where
  rest : c.rest = w ++ c'.rest
  place : c'.place = c.place.advance w

variable {c c' c'' : Cursor} {w v : List Char} {holds : Char → Bool}

theorem Past.refl (c : Cursor) : Past [] c c := ⟨rfl, rfl⟩

theorem Past.trans (h : Past w c c') (h' : Past v c' c'') : Past (w ++ v) c c'' :=
  ⟨by rw [h.rest, h'.rest, List.append_assoc], by rw [h'.place, h.place, Place.advance_append]⟩

theorem Past.length (h : Past w c c') : c.rest.length = w.length + c'.rest.length := by
  rw [h.rest, List.length_append]

theorem Past.suffix (h : Past w c c') : c'.rest <:+ c.rest := ⟨w, h.rest.symm⟩

theorem Past.eq_of_length_le (h : Past w c c') (hle : c.rest.length ≤ c'.rest.length) :
    c' = c := by
  have hlen := h.length
  obtain rfl : w = [] := List.eq_nil_of_length_eq_zero (by omega)
  obtain ⟨hrest, hplace⟩ := h
  obtain ⟨p, rest⟩ := c
  obtain ⟨p', rest'⟩ := c'
  simp only [List.nil_append, Place.advance_nil] at hrest hplace
  rw [hrest, hplace]

theorem past_mk (p : Place) (w k : List Char) : Past w ⟨p, w ++ k⟩ ⟨p.advance w, k⟩ := ⟨rfl, rfl⟩

/-- The first bytes of a text are the characters that have so many. -/
theorem takeBytes_sum (k : List Char) : ∀ w : List Char,
    takeBytes (w.map Char.utf8Size).sum (w ++ k) = w
  | [] => by simp [takeBytes]
  | x :: w => by
    have hx : 0 < x.utf8Size := x.utf8Size_pos
    have hsum : ((x :: w).map Char.utf8Size).sum =
        (x.utf8Size - 1 + (w.map Char.utf8Size).sum) + 1 := by
      rw [List.map_cons, List.sum_cons]
      omega
    have hleft : x.utf8Size - 1 + (w.map Char.utf8Size).sum + 1 - x.utf8Size =
        (w.map Char.utf8Size).sum := by omega
    rw [hsum, List.cons_append, takeBytes, hleft, takeBytes_sum k w]

theorem textUpTo_of_past (h : Past w c c') : c.textUpTo c' = w := by
  have hoffset : c'.place.offset - c.place.offset = (w.map Char.utf8Size).sum := by
    rw [h.place, Place.offset_advance]
    omega
  rw [textUpTo, hoffset, h.rest, takeBytes_sum]

theorem one?_eq_some_iff : one? holds c = some c' ↔ ∃ x, holds x = true ∧ Past [x] c c' := by
  obtain ⟨p, rest⟩ := c
  obtain ⟨p', rest'⟩ := c'
  cases rest with
  | nil =>
    refine ⟨(fun h => nomatch h), ?_⟩
    rintro ⟨x, -, h, -⟩
    cases h
  | cons y ys =>
    constructor
    · intro h
      by_cases hy : holds y = true
      · simp only [one?, hy, ↓reduceIte, Option.some.injEq, mk.injEq] at h
        obtain ⟨rfl, rfl⟩ := h
        exact ⟨y, hy, rfl, rfl⟩
      · simp [one?, hy] at h
    · rintro ⟨x, hx, hrest, hplace⟩
      cases hrest
      obtain rfl : p' = p.advance [y] := hplace
      simp only [one?, hx, ↓reduceIte]
      rfl

theorem word?_eq_some_iff : ∀ {w : List Char} {c c' : Cursor},
    word? w c = some c' ↔ Past w c c'
  | [], c, c' => by
    constructor
    · intro h
      cases h
      exact .refl c
    · rintro ⟨hrest, hplace⟩
      obtain ⟨p, rest⟩ := c
      obtain ⟨p', rest'⟩ := c'
      cases hrest
      cases hplace
      rfl
  | x :: w, ⟨p, []⟩, c' => by
    refine ⟨(fun h => nomatch h), fun h => ?_⟩
    cases h.rest
  | x :: w, ⟨p, y :: ys⟩, c' => by
    by_cases hxy : x = y
    · subst hxy
      rw [word?, if_pos rfl, word?_eq_some_iff]
      constructor
      · exact fun h => ⟨congrArg _ h.rest, h.place⟩
      · exact fun h => ⟨List.cons.inj h.rest |>.2, h.place⟩
    · rw [word?, if_neg hxy]
      refine ⟨(fun h => nomatch h), fun h => ?_⟩
      exact absurd (List.cons.inj h.rest).1.symm hxy

theorem skipWhile_append : ∀ (b : List Char) (p : Place) (k : List Char), b.all holds = true →
    (∀ x ∈ k.head?, holds x = false) → skipWhile holds ⟨p, b ++ k⟩ = ⟨p.advance b, k⟩
  | [], p, [], _, _ => rfl
  | [], p, x :: k, _, hk => by
    have hx : holds x = false := hk x rfl
    simp [skipWhile, skipWhile.go, hx]
  | x :: b, p, k, hb, hk => by
    obtain ⟨hx, hb⟩ := Bool.and_eq_true_iff.mp hb
    have ih := skipWhile_append b (p.after x) k hb hk
    simp only [skipWhile] at ih
    simp only [skipWhile, skipWhile.go, List.cons_append, hx, ↓reduceIte, ih, Place.advance_cons]

theorem past_skipWhile (holds : Char → Bool) : ∀ (rest : List Char) (p : Place),
    ∃ b, b.all holds = true ∧ Past b ⟨p, rest⟩ (skipWhile holds ⟨p, rest⟩)
  | [], p => ⟨[], rfl, .refl _⟩
  | x :: rest, p => by
    by_cases hx : holds x = true
    · obtain ⟨b, hb, h⟩ := past_skipWhile holds rest (p.after x)
      have hstep : skipWhile holds ⟨p, x :: rest⟩ = skipWhile holds ⟨p.after x, rest⟩ := by
        simp [skipWhile, skipWhile.go, hx]
      refine ⟨x :: b, by simp [hx, hb], ?_⟩
      rw [hstep]
      exact ⟨congrArg _ h.rest, h.place⟩
    · refine ⟨[], rfl, ?_⟩
      have hstep : skipWhile holds ⟨p, x :: rest⟩ = ⟨p, x :: rest⟩ := by
        simp [skipWhile, skipWhile.go, hx]
      rw [hstep]
      exact .refl _

end Cursor

end Pseudonym

/-
# Line ends, and the characters of comments and strings

The steps that the grammar makes over a line end, over one character of a
comment and over one unit of a string, as functions on cursors. None of them
calls a rule, so they leave no nodes and no attempts.
-/
import Pseudonym.Proofs.Syntax.Comments
import Pseudonym.Proofs.Syntax.Literals

namespace Pseudonym

namespace Cursor

/-- Steps over the end of a line. -/
def newline? : Cursor → Option Cursor
  | ⟨p, '\n' :: k⟩ => some ⟨p.advance ['\n'], k⟩
  | ⟨p, '\r' :: '\n' :: k⟩ => some ⟨p.advance ['\r', '\n'], k⟩
  | _ => none

/-- Steps over a character that does not end the line. -/
def commentChar? : Cursor → Option Cursor
  | ⟨_, []⟩ => none
  | ⟨p, x :: k⟩ =>
    match newline? ⟨p, x :: k⟩ with
    | none => some ⟨p.advance [x], k⟩
    | some _ => none

/-- Steps over a backslash with the character behind it, or over a character that ends neither
the string nor the line. -/
def contentUnit? : Cursor → Option Cursor
  | ⟨p, '\\' :: x :: k⟩ => some ⟨p.advance ['\\', x], k⟩
  | c =>
    match c.rest.head? with
    | some '"' => none
    | some '\\' => none
    | _ => c.commentChar?

/-- The end of the line. -/
def lineEnd : Cursor → Cursor
  | ⟨p, rest⟩ => go p rest
where
  /-- The walk of `lineEnd` along the characters. -/
  go (p : Place) : List Char → Cursor
    | [] => ⟨p, []⟩
    | x :: k =>
      match newline? ⟨p, x :: k⟩ with
      | none => go (p.after x) k
      | some _ => ⟨p, x :: k⟩

variable {p : Place} {x : Char} {k : List Char}

theorem newline?_of_ne (hline : x ≠ '\n') (hreturn : x ≠ '\r' ∨ k.head? ≠ some '\n') :
    newline? ⟨p, x :: k⟩ = none := by
  unfold newline?
  split
  next heq =>
    cases heq
    exact absurd rfl hline
  next heq =>
    cases heq
    simp at hreturn
  next => rfl

theorem newline?_eq_none (h : newline? ⟨p, x :: k⟩ = none) :
    x ≠ '\n' ∧ (x ≠ '\r' ∨ k.head? ≠ some '\n') := by
  constructor
  · rintro rfl
    cases h
  · by_cases hx : x = '\r'
    · subst hx
      refine .inr fun hk => ?_
      obtain ⟨k, rfl⟩ := List.head?_eq_some_iff.mp hk
      cases h
    · exact .inl hx

theorem newline?_past {c d : Cursor} (h : c.newline? = some d) : ∃ w, Past w c d := by
  unfold newline? at h
  split at h
  next =>
    cases h
    exact ⟨_, past_mk _ ['\n'] _⟩
  next =>
    cases h
    exact ⟨_, past_mk _ ['\r', '\n'] _⟩
  next => cases h

theorem newline?_append {w : List Char} {c : Cursor} (h : newline? ⟨p, w⟩ = some c)
    (k : List Char) : newline? ⟨p, w ++ k⟩ = some ⟨c.place, c.rest ++ k⟩ := by
  unfold newline? at h
  split at h
  next heq =>
    cases heq
    cases h
    rfl
  next heq =>
    cases heq
    cases h
    rfl
  next => cases h

/-- Where a line feed behind a text ends the line, nothing or a carriage return is before it. -/
theorem newline?_before_newline {w : List Char} {c : Cursor} (hnone : newline? ⟨p, w⟩ = none)
    (hsome : newline? ⟨p, w ++ '\n' :: k⟩ = some c) :
    (w = [] ∨ w = ['\r']) ∧ c = ⟨p.advance (w ++ ['\n']), k⟩ := by
  cases w with
  | nil =>
    cases hsome
    exact ⟨.inl rfl, rfl⟩
  | cons x w =>
    obtain ⟨hline, hreturn⟩ := newline?_eq_none hnone
    cases w with
    | nil =>
      by_cases hx : x = '\r'
      · subst hx
        cases hsome
        exact ⟨.inr rfl, rfl⟩
      · rw [List.cons_append, newline?_of_ne hline (.inl hx)] at hsome
        cases hsome
    | cons y w =>
      have hreturn' : x ≠ '\r' ∨ (y :: (w ++ '\n' :: k)).head? ≠ some '\n' := hreturn
      rw [List.cons_append, List.cons_append, newline?_of_ne hline hreturn'] at hsome
      cases hsome

theorem commentChar?_of_newline? (h : newline? ⟨p, x :: k⟩ = none) :
    commentChar? ⟨p, x :: k⟩ = some ⟨p.advance [x], k⟩ := by
  rw [commentChar?, h]

theorem lineEnd_of_newline? {c : Cursor} (h : newline? ⟨p, x :: k⟩ = some c) :
    lineEnd ⟨p, x :: k⟩ = ⟨p, x :: k⟩ := by
  simp only [lineEnd, lineEnd.go, h]

theorem lineEnd_cons (h : newline? ⟨p, x :: k⟩ = none) :
    lineEnd ⟨p, x :: k⟩ = lineEnd ⟨p.after x, k⟩ := by
  simp only [lineEnd, lineEnd.go, h]

theorem contentUnit?_of_ne (hquote : x ≠ '"') (hback : x ≠ '\\') :
    contentUnit? ⟨p, x :: k⟩ = commentChar? ⟨p, x :: k⟩ := by
  unfold contentUnit?
  split
  next heq =>
    cases heq
    exact absurd rfl hback
  next =>
    split
    next heq =>
      cases heq
      exact absurd rfl hquote
    next heq =>
      cases heq
      exact absurd rfl hback
    next => rfl

end Cursor

open Peg

variable {m : Mode} {c : Cursor} {w : List Char}

/-- Where no blanks are skipped, a repetition starts as it goes on. -/
theorem Peg.Derives.many_of_more {R : Type} {g : Grammar R} {e : Expr R}
    {x : Option (Cursor × List (Node R))} (h : Derives g .atomic (.more e) c x) :
    Derives g .atomic (.expr (.many e)) c x := by
  cases h with
  | more hround hmore => exact .many hround hmore
  | moreNone hround => exact .manyNone hround

theorem derives_word_none (h : ¬ w <+: c.rest) : Derives grammar m (.expr (.word w)) c none := by
  refine .word ?_
  cases hword : Cursor.word? w c with
  | none => rfl
  | some c' => exact absurd ⟨_, (Cursor.word?_eq_some_iff.mp hword).rest.symm⟩ h

theorem derives_word (w : List Char) (p : Place) (k : List Char) :
    Derives grammar m (.expr (.word w)) ⟨p, w ++ k⟩ (some (⟨p.advance w, k⟩, [])) :=
  .word (by rw [Cursor.word?_eq_some_iff.mpr (Cursor.past_mk p w k)]; rfl)

theorem derives_newline (c : Cursor) :
    Derives grammar m (.expr Grammar.newline) c (c.newline?.map (·, [])) := by
  unfold Cursor.newline?
  split
  next p k =>
    exact .second (derives_word_none (by rintro ⟨v, hv⟩; cases hv)) (derives_word ['\n'] p k)
  next p k => exact .first (derives_word ['\r', '\n'] p k)
  next hline hreturn =>
    obtain ⟨p, rest⟩ := c
    refine .second (derives_word_none ?_) (derives_word_none ?_)
    · rintro ⟨k, rfl⟩
      exact hreturn p k rfl
    · rintro ⟨k, rfl⟩
      exact hline p k rfl

theorem derives_any (p : Place) (x : Char) (k : List Char) :
    Derives grammar m (.expr (.one .any)) ⟨p, x :: k⟩ (some (⟨p.advance [x], k⟩, [])) := .one rfl

theorem derives_commentChar (c : Cursor) :
    Derives grammar .atomic (.expr commentChar) c (c.commentChar?.map (·, [])) := by
  have hline := derives_newline (m := .atomic) c
  obtain ⟨p, rest⟩ := c
  cases rest with
  | nil => exact .seq (.notAhead hline) (y := none) (.one rfl) rfl
  | cons x k =>
    rw [Cursor.commentChar?]
    cases hnewline : Cursor.newline? ⟨p, x :: k⟩ with
    | none =>
      rw [hnewline] at hline
      exact .seq (.notAhead hline) (derives_any p x k) rfl
    | some c' =>
      rw [hnewline] at hline
      exact .seqFails (.notAheadFails hline)

/-- The text of a comment goes on to the end of the line. -/
theorem derives_more_commentChar (c : Cursor) :
    Derives grammar .atomic (.more commentChar) c (some (c.lineEnd, [])) := by
  obtain ⟨p, rest⟩ := c
  induction rest generalizing p with
  | nil => exact .moreNone (derives_commentChar ⟨p, []⟩)
  | cons x k ih =>
    have hchar := derives_commentChar ⟨p, x :: k⟩
    rw [Cursor.commentChar?] at hchar
    cases hnewline : Cursor.newline? ⟨p, x :: k⟩ with
    | none =>
      rw [hnewline] at hchar
      rw [Cursor.lineEnd_cons hnewline]
      exact .more hchar (ih _)
    | some c' =>
      rw [hnewline] at hchar
      rw [Cursor.lineEnd_of_newline? hnewline]
      exact .moreNone hchar

theorem derives_lineEnd (c : Cursor) :
    Derives grammar .atomic (.expr (.many commentChar)) c ((some c.lineEnd).map (·, [])) :=
  (derives_more_commentChar c).many_of_more

/-- Behind a character that is no backslash a unit is one character, unless the string or the
line ends. -/
theorem derives_single (hback : c.rest.head? ≠ some '\\') : Derives grammar .atomic
    (.expr contentUnit) c (if c.rest.head? = some '"' then none else c.commentChar?.map (·, [])) := by
  have hnone : ∀ {x : Char}, c.rest.head? ≠ some x → ¬ [x] <+: c.rest := by
    rintro x hx ⟨v, hv⟩
    exact hx (by rw [← hv]; rfl)
  have hline := derives_newline (m := .atomic) c
  refine .second (.seqFails (derives_word_none (hnone hback))) ?_
  by_cases hquote : c.rest.head? = some '"'
  · obtain ⟨p, rest⟩ := c
    obtain ⟨k, rfl⟩ := List.head?_eq_some_iff.mp hquote
    exact .seqFails (.notAheadFails (.first (derives_word ['"'] p k)))
  · rw [if_neg hquote]
    have hahead : Derives grammar .atomic (.expr (.alt (Grammar.lit "\"")
        (.alt (Grammar.lit "\\") Grammar.newline))) c (c.newline?.map (·, [])) :=
      .second (derives_word_none (hnone hquote)) (.second (derives_word_none (hnone hback)) hline)
    obtain ⟨p, rest⟩ := c
    cases rest with
    | nil => exact .seq (.notAhead hahead) (y := none) (.one rfl) rfl
    | cons x k =>
      rw [Cursor.commentChar?]
      cases hnewline : Cursor.newline? ⟨p, x :: k⟩ with
      | none =>
        rw [hnewline] at hahead
        exact .seq (.notAhead hahead) (derives_any p x k) rfl
      | some c' =>
        rw [hnewline] at hahead
        exact .seqFails (.notAheadFails hahead)

theorem derives_contentUnit (c : Cursor) :
    Derives grammar .atomic (.expr contentUnit) c (c.contentUnit?.map (·, [])) := by
  unfold Cursor.contentUnit?
  split
  next p x k =>
    exact .first (.seq (derives_word ['\\'] p (x :: k)) (derives_any _ x k) rfl)
  next hpair =>
    by_cases hback : c.rest.head? = some '\\'
    · obtain ⟨p, rest⟩ := c
      obtain ⟨k, rfl⟩ := List.head?_eq_some_iff.mp hback
      cases k with
      | nil =>
        refine .second (.seq (derives_word ['\\'] p []) (y := none) (.one rfl) rfl) (.seqFails ?_)
        exact .notAheadFails (.second (derives_word_none (by rintro ⟨v, hv⟩; cases hv))
          (.first (derives_word ['\\'] p [])))
      | cons x k => exact absurd rfl (hpair p x k)
    · have hsingle := derives_single hback
      split
      next hquote =>
        rw [if_pos hquote] at hsingle
        exact hsingle
      next hback' => exact absurd hback' hback
      next hquote _ =>
        rw [if_neg hquote] at hsingle
        exact hsingle

end Pseudonym

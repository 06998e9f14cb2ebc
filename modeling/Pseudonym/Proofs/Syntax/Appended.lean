/-
# One text behind another

A text that is a schema ends where a declaration may start. Behind a blank
line any other text may follow, and is read as it is alone, further down: the
declarations are those of the one and then those of the other, and a syntax
error is that of the second text.

Blocks do not look behind the brace that closes them. A comment at the end of
the first text ends with it, and a block of comments ends at the blank line.
One character may be read otherwise: a carriage return at the end of the first
text is the last character of a comment there, and ends its line when a line
feed follows.

Key definitions: `Cursor.Reaching`, `readDeclarations`.
-/
import Pseudonym.Proofs.Syntax.Closing
import Pseudonym.Proofs.Syntax.Declarations
import Pseudonym.Proofs.Syntax.Shifted

namespace Pseudonym

open Peg

/-- What follows the first text: a line end, a blank line, and the second text. -/
def blankLine (text : List Char) : List Char := '\n' :: '\n' :: text

/-! ### Comments at the end of the text -/

namespace Cursor

/-- The second cursor stands at the same place of the longer text, or just before a carriage
return with which the shorter one ends. -/
inductive Reaching (stop : Place) (text : List Char) (c c' : Cursor) : Prop
  | same (h : c.Extended stop (blankLine text) c')
  | before (hrest : c.rest = []) (hplace : c.place = stop)
    (hrest' : c'.rest = '\r' :: blankLine text) (hplace' : c'.place.after '\r' = stop)

variable {stop : Place} {text w k : List Char} {c c' : Cursor} {m : Mode}

theorem Extended.skip (m : Mode) (c c' : Cursor) (h : c.Extended stop (blankLine text) c') :
    (grammar.skip m c).Extended stop (blankLine text) (grammar.skip m c') := by
  refine grammar.skip_beside ?_ ?_ m c c' h
  · intro p p' x k k' _ h
    obtain ⟨hrest, hpast⟩ := h.past (w := [x]) rfl
    exact ⟨_, hrest, hpast⟩
  · rintro ⟨p, rest⟩ c' h hflush
    rw [h.rest]
    cases rest with
    | nil =>
      rintro y ⟨⟩
      rfl
    | cons x k => exact hflush

theorem Reaching.skip (m : Mode) (c c' : Cursor) (h : c.Reaching stop text c') :
    (grammar.skip m c).Reaching stop text (grammar.skip m c') := by
  cases h with
  | same h => exact .same (h.skip m)
  | before hrest hplace hrest' hplace' =>
    obtain ⟨p, rest⟩ := c
    obtain ⟨p', rest'⟩ := c'
    obtain rfl : rest = [] := hrest
    obtain rfl : rest' = '\r' :: blankLine text := hrest'
    rw [Grammar.skip_of_flush (k := []) nofun, Grammar.skip_of_flush (by rintro y ⟨⟩; rfl)]
    exact .before rfl hplace rfl hplace'

theorem Reaching.offset_le (h : c.Reaching stop text c') : c'.place.offset ≤ stop.offset := by
  cases h with
  | same h => exact h.offset_le
  | before _ _ _ hplace' =>
    rw [← hplace']
    exact Nat.le_add_right _ _

theorem Reaching.line (h : c.Reaching stop text c') : c'.place.line = c.place.line := by
  cases h with
  | same h => rw [h.place]
  | before _ hplace _ hplace' =>
    rw [hplace, ← hplace']
    rfl

/-- The line of a comment ends in both texts at the same place, or in the longer one before the
carriage return that ends the shorter one. -/
theorem Extended.lineEnd (h : c.Extended stop (blankLine text) c') :
    c.lineEnd.Reaching stop text c'.lineEnd := by
  obtain ⟨p, rest⟩ := c
  obtain ⟨p', rest'⟩ := c'
  obtain rfl : p' = p := h.place
  obtain rfl : rest' = rest ++ blankLine text := h.rest
  induction rest generalizing p' with
  | nil => exact .same h
  | cons x k ih =>
    cases hnewline : newline? ⟨p', x :: k⟩ with
    | some c =>
      have hnewline' : newline? ⟨p', x :: (k ++ blankLine text)⟩ =
          some ⟨c.place, c.rest ++ blankLine text⟩ := newline?_append hnewline _
      rw [lineEnd_of_newline? hnewline, List.cons_append, lineEnd_of_newline? hnewline']
      exact .same h
    | none =>
      obtain ⟨-, hpast⟩ := h.past (w := [x]) rfl
      rw [lineEnd_cons hnewline, List.cons_append]
      cases hnewline' : newline? ⟨p', x :: (k ++ blankLine text)⟩ with
      | none =>
        rw [lineEnd_cons hnewline']
        exact ih _ hpast
      | some c =>
        rw [lineEnd_of_newline? hnewline']
        obtain ⟨hreturn, -⟩ := newline?_before_newline (w := x :: k) hnewline hnewline'
        cases hreturn.resolve_left nofun
        exact .before rfl hpast.stop rfl hpast.stop

theorem Reaching.newline?_some {d : Cursor} (h : c.Reaching stop text c')
    (hd : c.newline? = some d) :
    ∃ d', c'.newline? = some d' ∧ d.Extended stop (blankLine text) d' := by
  obtain ⟨p, rest⟩ := c
  obtain ⟨p', rest'⟩ := c'
  cases h with
  | same h =>
    obtain rfl : p' = p := h.place
    obtain rfl : rest' = rest ++ blankLine text := h.rest
    obtain ⟨w, hw⟩ := newline?_past hd
    refine ⟨_, newline?_append hd _, rfl, rfl, ?_⟩
    rw [← h.stop, hw.rest, hw.place, Place.advance_append]
  | before hrest =>
    obtain rfl : rest = [] := hrest
    cases hd

/-- A line that ends only in the longer text ends behind the shorter one. -/
theorem Reaching.newline?_only {d' : Cursor} (h : c.Reaching stop text c')
    (hnone : c.newline? = none) (hd' : c'.newline? = some d') :
    d' = ⟨stop.after '\n', '\n' :: text⟩ := by
  obtain ⟨p, rest⟩ := c
  obtain ⟨p', rest'⟩ := c'
  cases h with
  | same h =>
    obtain rfl : p' = p := h.place
    obtain rfl : rest' = rest ++ blankLine text := h.rest
    obtain ⟨-, rfl⟩ := newline?_before_newline hnone hd'
    rw [Place.advance_append, h.stop]
    rfl
  | before _ _ hrest' hplace' =>
    obtain rfl : rest' = '\r' :: blankLine text := hrest'
    cases hd'
    rw [← hplace']
    rfl

end Cursor

section Comments

open Cursor

variable {stop : Place} {text w w' : List Char} {c c' c₁ c₁' : Cursor} {m : Mode} {l : Look}
  {r : Rule} {ns ns' : List Tree}

theorem node_reaching (h : c.Reaching stop text c') (hr : Grammar.kind r ≠ .atomic)
    (hns : List.Forall₂ (upTo stop).node ns ns') :
    (upTo stop).node ⟨r, .between c.place c₁.place, w, ns⟩
      ⟨r, .between c'.place c₁'.place, w', ns'⟩ := by
  refine Node.bare_congr ?_ (Rule.kept_of_kind hr w w') hns
  simp only [Span.onLine, Span.between, h.line]

theorem trimBlanks_return (w : List Char) : trimBlanks (w ++ ['\r']) = trimBlanks w := by
  have hreturn : isBlank '\r' = true := rfl
  rw [trimBlanks, trimBlanks, List.dropWhile_append]
  split
  next hempty =>
    rw [List.isEmpty_iff.mp hempty]
    rfl
  next => rw [List.reverse_append, List.reverse_singleton, List.singleton_append,
    List.dropWhile_cons_of_pos hreturn]

/-- The text of a comment is the same, but for a carriage return at its end. -/
theorem beside_commentText (h : c.Extended stop (blankLine text) c') :
    grammar.Beside (upTo stop) (Reaching stop text) ⟨.compact, l⟩ c c'
      (.expr (.call .commentText)) := by
  have L := survey.toLayering
  refine L.beside_call ?_ (record_upTo h.offset_le _) ?_
  · exact L.beside_silent derives_lineEnd rfl rfl (.some h.lineEnd)
  · intro _ w w' c₁ c₁' ns ns' hw hw' h₁ hns
    cases h₁ with
    | same h₁ => exact node_upTo h h₁ hw hw' _ hns
    | before hrest _ hrest' _ =>
      have htext : w = w' ++ ['\r'] := by
        have hrests := h.rest
        rw [hw.rest, hw'.rest, hrest, hrest', List.append_nil, List.append_cons] at hrests
        exact (List.append_cancel_right hrests).symm
      refine Node.bare_congr ?_ ?_ hns
      · simp only [Span.onLine, Span.between, h.place]
      · rw [htext]
        exact trimBlanks_return w'

theorem beside_slashes (hhead : w.head? = some '/') (hline : '\n' ∉ w)
    (h : c.Reaching stop text c') :
    grammar.Beside (upTo stop) (Extended stop (blankLine text)) ⟨m, l⟩ c c' (.expr (.word w)) := by
  obtain ⟨v, rfl⟩ := List.head?_eq_some_iff.mp hhead
  cases h with
  | same h =>
    refine .word (fun hw => ?_) fun k hk => ⟨_, h.past hk⟩
    rw [h.rest] at hw
    rcases List.prefix_or_prefix_of_prefix hw (List.prefix_append c.rest _) with hw' | ⟨u, hu⟩
    · exact hw'
    · -- What is left of the word would start with a line feed.
      rw [← hu, List.prefix_append_right_inj] at hw
      cases u with
      | nil => exact ⟨[], by rw [← hu, List.append_nil, List.append_nil]⟩
      | cons y u =>
        obtain ⟨rfl, -⟩ := List.cons_prefix_cons.mp hw
        refine absurd ?_ hline
        rw [← hu]
        exact List.mem_append_right _ List.mem_cons_self
  | before hrest _ hrest' _ =>
    refine .word (fun hw => ?_) fun k hk => ?_
    · rw [hrest'] at hw
      exact absurd (List.cons_prefix_cons.mp hw).1 (by decide)
    · rw [hrest] at hk
      cases hk

theorem beside_lastComment (hr : r = .docComment ∨ r = .lineComment)
    (h : c.Reaching stop text c') :
    grammar.Beside (upTo stop) (Reaching stop text) ⟨m, l⟩ c c' (.expr (.call r)) := by
  have L := survey.toLayering
  rcases hr with rfl | rfl
  all_goals
    refine L.beside_call ?_ (record_upTo h.offset_le _) fun _ _ _ _ _ _ _ _ _ _ =>
      node_reaching h nofun
    exact L.beside_seq rfl (beside_slashes rfl (by decide) h) fun _ _ _ _ _ h₁ =>
      beside_commentText h₁

theorem beside_lastComments (h : c.Reaching stop text c') :
    grammar.Beside (upTo stop) (Reaching stop text) ⟨m, l⟩ c c' (.expr Grammar.comment) :=
  Grammar.beside_alt (beside_lastComment (.inl rfl) h) fun _ => beside_lastComment (.inr rfl) h

/-- No comment starts on the blank line. -/
theorem run_comment_blankLine {a : Attempts Rule} (ha : a.place.offset ≤ stop.offset + 1) :
    ∃ a₁, grammar.run (.expr Grammar.comment) ⟨m, l⟩ ⟨stop.after '\n', '\n' :: text⟩ a =
      ⟨none, a₁⟩ ∧ a₁.place.offset ≤ stop.offset + 1 := by
  have L := survey.toLayering
  generalize hc : (⟨stop.after '\n', '\n' :: text⟩ : Cursor) = c
  have hplace : c.place.offset ≤ stop.offset + 1 := by
    rw [← hc]
    exact Nat.le_refl _
  have hcall : ∀ {r}, r = .docComment ∨ r = .lineComment →
      grammar.Beside (upTo stop) (fun _ _ => False) ⟨m, l⟩ c c (.expr (.call r)) := by
    intro r hr
    rcases hr with rfl | rfl
    all_goals
      refine L.beside_call ?_
        (fun _ a' _ e' negative ha _ => Attempts.record_le a' e' _ _ negative ha hplace)
        fun _ _ _ _ _ _ _ _ _ h => h.elim
      refine L.beside_seq rfl (.word id fun k hk => ?_) fun _ _ _ _ _ (h : False) => h.elim
      rw [← hc] at hk
      cases hk
  have hbeside : grammar.Beside (upTo stop) (fun _ _ => False) ⟨m, l⟩ c c (.expr Grammar.comment) :=
    Grammar.beside_alt (hcall (.inl rfl)) fun _ => hcall (.inr rfl)
  have houtcome := hbeside a a ha
  generalize grammar.run (.expr Grammar.comment) ⟨m, l⟩ c a = o at houtcome
  cases houtcome with
  | fail ha₁ => exact ⟨_, rfl, ha₁⟩
  | read _ h => exact h.elim

/-- A block of comments does not go on over the blank line. -/
theorem beside_nextComment (h : c.Reaching stop text c') :
    grammar.Beside (upTo stop) (Reaching stop text) ⟨m, l⟩ c c'
      (.expr (.seq Grammar.newline Grammar.comment)) := by
  have L := survey.toLayering
  cases hd : c.newline? with
  | some d =>
    obtain ⟨d', hd', hext⟩ := h.newline?_some hd
    have hrel : Option.Rel (Extended stop (blankLine text)) c.newline? c'.newline? := by
      rw [hd, hd']
      exact .some hext
    exact L.beside_seq rfl (L.beside_silent derives_newline rfl rfl hrel) fun _ _ _ _ _ h₁ =>
      beside_lastComments (.skip _ _ _ (.same h₁))
  | none =>
    cases hd' : c'.newline? with
    | none =>
      have hrel : Option.Rel (fun _ _ => False) c.newline? c'.newline? := by
        rw [hd, hd']
        exact .none
      exact L.beside_seq rfl (L.beside_silent derives_newline rfl rfl hrel)
        fun _ _ _ _ _ h₁ => h₁.elim
    | some d' =>
      obtain rfl := h.newline?_only hd hd'
      intro a a' ha
      have hnone : grammar.run (.expr Grammar.newline) ⟨m, l⟩ c a = ⟨none, a⟩ := by
        rw [L.run_silent (derives_newline c) rfl rfl, hd]
        rfl
      have hsome : grammar.run (.expr Grammar.newline) ⟨m, l⟩ c' a' =
          ⟨some (⟨stop.after '\n', '\n' :: text⟩, []), a'⟩ := by
        rw [L.run_silent (derives_newline c') rfl rfl, hd']
        rfl
      obtain ⟨a₁, hcomment, ha₁⟩ := run_comment_blankLine (m := m) (l := l) ha
      rw [L.run_seq rfl, L.run_seq rfl, Reader.seq_of_none hnone, Reader.seq_of_some hsome,
        Reader.afterBlanks_of_flush (by rintro y ⟨⟩; rfl), hcomment]
      exact .fail ha₁

/-- Comments at the end of the text. -/
def Accord.reaching (stop : Place) (text : List Char) :
    Accord grammar (upTo stop) (Reaching stop text) where
  atom _ e := e == .call .docComment || e == .call .lineComment ||
    e == .seq Grammar.newline Grammar.comment
  calls r := r == .commentBlock
  skip := Reaching.skip
  record r _ c c' hc := record_upTo hc.offset_le r
  node r m hr _ c c' w w' c₁ c₁' ns ns' hc _ _ _ hns :=
    node_reaching hc (by cases beq_iff_eq.mp hr; exact nofun) hns
  atoms m e he l c c' hc := by
    simp only [Bool.or_eq_true, beq_iff_eq] at he
    rcases he with (rfl | rfl) | rfl
    · exact beside_lastComment (.inl rfl) hc
    · exact beside_lastComment (.inr rfl) hc
    · exact beside_nextComment hc
  bodies r m hr := by
    cases beq_iff_eq.mp hr
    rfl

end Comments

/-! ### Declarations -/

section Declarations

open Cursor

variable {stop : Place} {text : List Char} {c c' c₁ : Cursor} {l : Look} {ns : List Tree}

/-- Before a closing brace, every declaration is read in the longer text as in the shorter one. -/
theorem beside_declaration_of_within (h : Within stop (blankLine text) true .code c c') :
    grammar.Beside (upTo stop) (Reaching stop text) ⟨.spaced, l⟩ c c' (.expr declaration) := by
  have hcode : ∀ {e : Expr Rule}, e.isCode = true →
      grammar.Beside (upTo stop) (Reaching stop text) ⟨.spaced, l⟩ c c' (.expr e) :=
    fun he => (beside_code he h).mono fun _ _ _ _ _ h₁ => .same h₁.1
  have hblock : ∀ {r : Rule}, r = .configBlock ∨ r = .modelDef ∨ r = .enumDef →
      grammar.Beside (upTo stop) (Reaching stop text) ⟨.spaced, l⟩ c c' (.expr (.call r)) :=
    fun hr => (beside_block hr h).mono fun _ _ _ _ _ h₁ => .same h₁
  exact Grammar.beside_alt (hcode rfl) fun _ => Grammar.beside_alt (hcode rfl) fun _ =>
    Grammar.beside_alt (hblock (.inl rfl)) fun _ =>
      Grammar.beside_alt (hblock (.inr (.inl rfl))) fun _ => hblock (.inr (.inr rfl))

/-- A block of comments starts with a slash. -/
theorem slash_of_comments {m : Mode}
    (h : Parses m (.call .commentBlock) c c₁ ns) :
    c.rest.head? = some '/' := by
  obtain ⟨_, hbody, -⟩ := h.of_call
  obtain ⟨_, _, _, hcomment, -⟩ := hbody.of_seq
  rcases hcomment.of_alt with hdoc | ⟨-, hline⟩
  · obtain ⟨_, hdoc, -⟩ := hdoc.of_call
    obtain ⟨_, _, _, hslashes, -⟩ := hdoc.of_seq
    rw [hslashes.of_word.1.rest]
    rfl
  · obtain ⟨_, hline, -⟩ := hline.of_call
    obtain ⟨_, _, _, hslashes, -⟩ := hline.of_seq
    rw [hslashes.of_word.1.rest]
    rfl

/-- A declaration of the first text is read in the longer text, too. -/
theorem beside_declaration (h : c.Extended stop (blankLine text) c')
    (hround : Parses .spaced declaration c c₁ ns) :
    grammar.Beside (upTo stop) (Reaching stop text) ⟨.spaced, l⟩ c c' (.expr declaration) := by
  have L := survey.toLayering
  have hblock : ∀ {r : Rule} {c₁ ns}, r = .configBlock ∨ r = .modelDef ∨ r = .enumDef →
      Parses .spaced (.call r) c c₁ ns →
      grammar.Beside (upTo stop) (Reaching stop text) ⟨.spaced, l⟩ c c' (.expr declaration) :=
    fun hr hd => beside_declaration_of_within ⟨h, closes_of_block hr hd⟩
  rcases hround.of_alt with hline | ⟨hline, hround⟩
  · -- A line end.
    refine Grammar.beside_alt ?_ ?_
    · cases hd : c.newline? with
      | none =>
        have hnone := derives_newline (m := .spaced) c
        rw [hd] at hnone
        cases hnone.unique hline
      | some d =>
        obtain ⟨d', hd', hext⟩ := (Reaching.same h).newline?_some hd
        refine L.beside_silent derives_newline rfl rfl ?_
        rw [hd, hd']
        exact .some (.same hext)
    · rintro ⟨a, hnone⟩
      cases (L.run_result hline rfl).symm.trans hnone
  rcases hround.of_alt with hcomments | ⟨-, hround⟩
  · -- Comments.
    obtain ⟨k, hk⟩ := List.head?_eq_some_iff.mp (slash_of_comments hcomments)
    have hnone : ∀ {p k}, Cursor.newline? ⟨p, '/' :: k⟩ = none :=
      Cursor.newline?_of_ne (by decide) (.inl (by decide))
    refine Grammar.beside_alt ?_ fun _ => ?_
    · refine L.beside_silent derives_newline rfl rfl ?_
      obtain ⟨p, rest⟩ := c
      obtain ⟨p', rest'⟩ := c'
      obtain rfl : rest = '/' :: k := hk
      obtain rfl : rest' = '/' :: (k ++ blankLine text) := h.rest
      rw [hnone, hnone]
      exact .none
    · refine Grammar.beside_alt ?_ ?_
      · exact (Accord.reaching stop text).beside L rfl rfl (.same h)
      · rintro ⟨a, hnone⟩
        cases (L.run_result hcomments rfl).symm.trans hnone
  rcases hround.of_alt with hconfig | ⟨-, hround⟩
  · exact hblock (.inl rfl) hconfig
  rcases hround.of_alt with hmodel | ⟨-, henum⟩
  · exact hblock (.inr (.inl rfl)) hmodel
  · exact hblock (.inr (.inr rfl)) henum

end Declarations

/-! ### Rounds -/

section Rounds

open Cursor

variable {stop : Place} {text : List Char} {c c' c₁ d : Cursor} {m : Mode} {l : Look} {ns : List Tree}
  {a a' : Attempts Rule}

theorem run_declaration_of_newline? (hd : c.newline? = some d) :
    grammar.run (.expr declaration) ⟨m, l⟩ c a = ⟨some (d, []), a⟩ := by
  have hline : grammar.run (.expr Grammar.newline) ⟨m, l⟩ c a = ⟨some (d, []), a⟩ := by
    rw [survey.toLayering.run_silent (derives_newline c) rfl rfl, hd]
    rfl
  show Reader.alt (grammar.run (.expr Grammar.newline)) _ ⟨m, l⟩ c a = _
  rw [Reader.alt, hline]

theorem Cursor.Reaching.newline?_end (h : c.Reaching stop text c') (hrest : c.rest = []) :
    c'.newline? = some ⟨stop.after '\n', '\n' :: text⟩ := by
  have hnone : c.newline? = none := by
    obtain ⟨p, rest⟩ := c
    obtain rfl : rest = [] := hrest
    rfl
  obtain ⟨d', hd'⟩ : ∃ d', c'.newline? = some d' := by
    obtain ⟨p', rest'⟩ := c'
    cases h with
    | same h =>
      obtain rfl : rest' = blankLine text := by rw [← List.nil_append (blankLine text), ← hrest, ← h.rest]
      exact ⟨_, rfl⟩
    | before _ _ hrest' _ =>
      obtain rfl : rest' = '\r' :: blankLine text := hrest'
      exact ⟨_, rfl⟩
  rw [hd', h.newline?_only hnone hd']

/-- Behind the first text the two line ends are read, and then the second text. -/
theorem run_blankLine (h : c.Reaching stop text c') (hrest : (grammar.skip .spaced c).rest = []) :
    grammar.run (.more declaration) ⟨.spaced, l⟩ c' a' =
      grammar.run (.more declaration) ⟨.spaced, l⟩ ⟨stop.advance ['\n', '\n'], text⟩ a' := by
  have hfirst := (h.skip .spaced).newline?_end hrest
  have hsecond : Cursor.newline? (grammar.skip .spaced ⟨stop.after '\n', '\n' :: text⟩) =
      some ⟨stop.advance ['\n', '\n'], text⟩ := by
    rw [Grammar.skip_of_flush (by rintro y ⟨⟩; rfl)]
    rfl
  rw [survey.toLayering.run_more_of_some rfl (run_declaration_of_newline? hfirst),
    Outcome.after_nil, survey.toLayering.run_more_of_some rfl (run_declaration_of_newline? hsecond),
    Outcome.after_nil]

/-- The declarations of the first text are read in the longer one, and then the second text. -/
theorem run_rounds (hmore : Derives grammar .spaced (.more declaration) c (some (c₁, ns)))
    (hend : (grammar.skip .spaced c₁).rest = []) : ∀ {c' a'}, c.Reaching stop text c' →
    a'.place.offset ≤ stop.offset + 1 →
    ∃ ns' a₁, List.Forall₂ (upTo stop).node ns ns' ∧ a₁.place.offset ≤ stop.offset + 1 ∧
      grammar.run (.more declaration) ⟨.spaced, l⟩ c' a' =
        (grammar.run (.more declaration) ⟨.spaced, l⟩ ⟨stop.advance ['\n', '\n'], text⟩ a₁).after
          ns' := by
  generalize ht : Goal.more declaration = t at hmore
  generalize hx : some (c₁, ns) = x at hmore
  generalize hm : Mode.spaced = m at hmore
  induction hmore generalizing ns with
  | @more m e c c₂ c₃ before after hround _ _ ih =>
    cases ht
    cases hx
    subst hm
    intro c' a' h ha
    have hext : (grammar.skip .spaced c).Extended stop (blankLine text) (grammar.skip .spaced c') := by
      cases h.skip .spaced with
      | same h => exact h
      | before hrest =>
        have hlt := survey.length_lt hround rfl _ rfl
        rw [hrest] at hlt
        exact absurd hlt (Nat.not_lt_zero _)
    have hbeside := beside_declaration (l := l) hext hround .none a' ha
    have hresult := survey.toLayering.run_result (l := l) (a := .none) hround rfl
    generalize grammar.run (.expr declaration) ⟨.spaced, l⟩ (grammar.skip .spaced c) .none = o
      at hbeside hresult
    generalize ho' : grammar.run (.expr declaration) ⟨.spaced, l⟩ (grammar.skip .spaced c') a' = o'
      at hbeside
    cases hbeside with
    | fail => cases hresult
    | read ha₁ hc₁ _ _ hnodes =>
      cases hresult
      obtain ⟨ns', a₂, hns, ha₂, hrun⟩ := ih rfl rfl rfl hc₁ ha₁
      refine ⟨_, a₂, List.rel_append hnodes hns, ha₂, ?_⟩
      rw [survey.toLayering.run_more_of_some rfl ho', hrun, Outcome.after_after]
  | moreNone hround =>
    cases ht
    cases hx
    subst hm
    intro c' a' h ha
    exact ⟨[], a', .nil, ha, by rw [run_blankLine h hend, Outcome.after_nil]⟩
  | _ => cases ht

end Rounds

/-! ### Schemas -/

section Schemas

open Cursor

variable {c c' c₁ : Cursor} {a a' a₁ : Attempts Rule} {ns : List Tree}

/-- Reads declarations, up to the end of the text. -/
def readDeclarations (c : Cursor) (a : Attempts Rule) : Outcome Rule :=
  Reader.seq (grammar.run (.more declaration))
    ((grammar.run (.expr (.call .endOfText))).afterBlanks grammar.blank) ⟨.spaced, .consuming⟩ c a

/-- The node that the end of the text leaves. -/
def endNode (c : Cursor) : Tree := ⟨.endOfText, .between c.place c.place, [], []⟩

theorem run_endOfText (c : Cursor) (a : Attempts Rule) :
    grammar.run (.expr (.call .endOfText)) ⟨.spaced, .consuming⟩ c a =
      if c.rest = [] then ⟨some (c, [endNode c]), a⟩
      else ⟨none, a.record a .endOfText c.place false⟩ := by
  have hfinish : grammar.run (.expr (grammar.body .endOfText)) ⟨.spaced, .consuming⟩ c a =
      ⟨(if c.rest.isEmpty then some c else none).map (·, []), a⟩ := rfl
  have hinner : (grammar.kind .endOfText).innerMode .spaced = .spaced := rfl
  have houter : (grammar.kind .endOfText).outerMode .spaced = .spaced := rfl
  rw [survey.toLayering.run_call, Reader.rule, hinner, hfinish, houter]
  by_cases hrest : c.rest = []
  · rw [if_pos (List.isEmpty_iff.mpr hrest), if_pos hrest, endNode,
      ← Cursor.textUpTo_of_past (.refl c)]
    rfl
  · rw [if_neg (mt List.isEmpty_iff.mp hrest), if_neg hrest]
    rfl

/-- Behind the declarations, the text ends or that is what was expected. -/
theorem readDeclarations_of_some
    (h : grammar.run (.more declaration) ⟨.spaced, .consuming⟩ c a = ⟨some (c₁, ns), a₁⟩) :
    readDeclarations c a =
      if (grammar.skip .spaced c₁).rest = [] then
        ⟨some (grammar.skip .spaced c₁, ns ++ [endNode (grammar.skip .spaced c₁)]), a₁⟩
      else ⟨none, a₁.record a₁ .endOfText (grammar.skip .spaced c₁).place false⟩ := by
  have hblanks : (grammar.run (.expr (.call .endOfText))).afterBlanks grammar.blank
      ⟨.spaced, .consuming⟩ c₁ a₁ = _ := run_endOfText (grammar.skip .spaced c₁) a₁
  rw [readDeclarations, Reader.seq_of_some h, hblanks]
  split_ifs <;> rfl

theorem run_body_schema (text : List Char) (a : Attempts Rule) :
    grammar.run (.expr (grammar.body .schema)) ⟨.spaced, .consuming⟩ (.ofText text) a =
      readDeclarations (.ofText text) a := by
  have hbody : grammar.run (.expr (grammar.body .schema)) ⟨.spaced, .consuming⟩ (.ofText text) a =
      Reader.seq (grammar.run (.expr .start)) ((grammar.run (.expr (.seq (.many declaration)
        (.call .endOfText)))).afterBlanks grammar.blank) ⟨.spaced, .consuming⟩ (.ofText text) a :=
    survey.toLayering.run_seq rfl
  have hstart : grammar.run (.expr .start) ⟨.spaced, .consuming⟩ (.ofText text) a =
      ⟨some (.ofText text, []), a⟩ := rfl
  rw [hbody, Reader.seq_of_some hstart, Outcome.after_nil]
  show grammar.run (.expr (.seq (.many declaration) (.call .endOfText))) ⟨.spaced, .consuming⟩
    (grammar.skip .spaced (.ofText text)) a = _
  rw [survey.toLayering.run_seq rfl, survey.toLayering.seq_many_skip rfl, readDeclarations]

/-- The declarations that some nodes are. -/
def Schema.ofNodes (ns : List Tree) : Except SyntaxError Schema := do
  .ok ⟨(← ns.mapM Declaration.ofNode?).filterMap id⟩

theorem Schema.ofNodes_append (ns ns' : List Tree) :
    Schema.ofNodes (ns ++ ns') =
      (Schema.ofNodes ns).bind fun s => (Schema.ofNodes ns').map (s.append ·) := by
  simp only [Schema.ofNodes, List.mapM_append]
  cases ns.mapM Declaration.ofNode? with
  | error e => rfl
  | ok ds =>
    cases ns'.mapM Declaration.ofNode? with
    | error e => rfl
    | ok ds' =>
      show Except.ok _ = Except.ok _
      rw [List.filterMap_append]
      rfl

/-- The error of a text in which declarations cannot be read up to the end is at the place of the
furthest attempt. -/
theorem Schema.parse_of_none {text : String}
    (h : readDeclarations (.ofText text.toList) .none = ⟨none, a⟩) :
    ∃ e, Schema.parse text = .error e ∧ e.offset = a.place.offset ∧ e.line = a.place.line := by
  have hrun : grammar.run (.expr (.call .schema)) ⟨.spaced, .consuming⟩ (.ofText text.toList) .none =
      ⟨none, a.record .none .schema .origin false⟩ := by
    have hinner : (grammar.kind .schema).innerMode .spaced = .spaced := rfl
    rw [survey.toLayering.run_call, Reader.rule, hinner, run_body_schema, h]
    rfl
  have hplace : (a.record .none .schema .origin false).place = a.place := a.place_record_origin ..
  rcases Schema.parse_cases text with ⟨a', hrun', hparse⟩ | ⟨_, _, _, _, hrun', -⟩
  · cases hrun.symm.trans hrun'
    exact ⟨_, hparse, congrArg Place.offset hplace, congrArg Place.line hplace⟩
  · cases hrun.symm.trans hrun'

/-- The declarations that are read up to the end of a text are the schema, with any spans. -/
theorem Schema.parse_of_some {text : String}
    (h : readDeclarations (.ofText text.toList) .none = ⟨some (c, ns), a⟩) :
    ∃ s, Schema.parse text = .ok s ∧
      ∀ f, Schema.ofNodes (ns.map (·.bare f)) = .ok (s.retouch (.mapSpan f)) := by
  have hrun : grammar.run (.expr (.call .schema)) ⟨.spaced, .consuming⟩ (.ofText text.toList) .none =
      ⟨some (c, [⟨.schema, .between .origin c.place, Cursor.textUpTo (.ofText text.toList) c, ns⟩]),
        a⟩ := by
    have hinner : (grammar.kind .schema).innerMode .spaced = .spaced := rfl
    rw [survey.toLayering.run_call, Reader.rule, hinner, run_body_schema, h]
    rfl
  rcases Schema.parse_cases text with ⟨_, hrun', -⟩ | ⟨_, n, _, s, hrun', hn, hs, hparse⟩
  · cases hrun.symm.trans hrun'
  · cases hrun.symm.trans hrun'
    refine ⟨s, hparse, fun f => ?_⟩
    rw [← Schema.mirrors_ofNode hn s hs, ← Node.bareEach_eq_map]
    rfl

/-- The declarations of a text, in front of a blank line and another text. -/
theorem readDeclarations_append {t : List Char} (t' : List Char)
    (h : readDeclarations (.ofText t) .none = ⟨some (c, ns), a⟩) :
    ∃ ns₁ ns₁' d a₁, ns = ns₁ ++ [endNode d] ∧
      List.Forall₂ (upTo (Place.origin.advance t)).node ns₁ ns₁' ∧
      a₁.place.offset ≤ (Place.origin.advance t).offset + 1 ∧
      readDeclarations (.ofText (t ++ blankLine t')) .none =
        (readDeclarations ⟨(Place.origin.advance t).advance ['\n', '\n'], t'⟩ a₁).after ns₁' := by
  have hmore : Derives grammar .spaced (.more declaration) (.ofText t) (grammar.run (.more declaration)
      ⟨.spaced, .consuming⟩ (.ofText t) .none).result := survey.toLayering.run_derives rfl
  cases ho : grammar.run (.more declaration) ⟨.spaced, .consuming⟩ (.ofText t) .none with
  | mk x a₂ =>
    rw [ho] at hmore
    cases x with
    | none =>
      rw [readDeclarations, Reader.seq_of_none ho] at h
      cases h
    | some z =>
      obtain ⟨c₂, ns₁⟩ := z
      rw [readDeclarations_of_some ho] at h
      by_cases hrest : (grammar.skip .spaced c₂).rest = []
      · rw [if_pos hrest] at h
        cases h
        have hreaching : (Cursor.ofText t).Reaching (Place.origin.advance t) t'
            (.ofText (t ++ blankLine t')) := .same ⟨rfl, rfl, rfl⟩
        have hnone : (.none : Attempts Rule).place.offset ≤ (Place.origin.advance t).offset + 1 :=
          Nat.zero_le _
        obtain ⟨ns₁', a₁, hns, ha₁, hrun⟩ := run_rounds (l := .consuming) hmore hrest hreaching hnone
        exact ⟨ns₁, ns₁', _, a₁, rfl, hns, ha₁, Reader.seq_after hrun⟩
      · rw [if_neg hrest] at h
        cases h

/-- Declarations are read further down as they are anywhere. Where they cannot be read up to the
end, the furthest attempt is further down, too. -/
theorem readDeclarations_shifted {bytes lines : Nat} (hc : c.Shifted bytes lines c')
    (ha : Attempts.Later bytes lines a a') :
    (∃ b, readDeclarations c a = ⟨none, b⟩ ∧
      readDeclarations c' a' = ⟨none, b.shift bytes lines⟩) ∨
    ∃ d d' ns ns' b b', readDeclarations c a = ⟨some (d, ns), b⟩ ∧
      readDeclarations c' a' = ⟨some (d', ns'), b'⟩ ∧
      List.Forall₂ (furtherDown bytes lines).node ns ns' := by
  have hbeside := (Accord.shifted bytes lines).beside survey.toLayering (m := .spaced)
    (t := .more declaration) (l := .consuming) rfl rfl hc a a' ha
  have hmore : Derives grammar .spaced (.more declaration) c (grammar.run (.more declaration)
      ⟨.spaced, .consuming⟩ c a).result := survey.toLayering.run_derives rfl
  generalize ho : grammar.run (.more declaration) ⟨.spaced, .consuming⟩ c a = o at hbeside hmore
  generalize ho' : grammar.run (.more declaration) ⟨.spaced, .consuming⟩ c' a' = o' at hbeside
  cases hbeside with
  | fail => cases hmore
  | @read c₁ c₁' ns ns' b b' hb hc₁ _ _ hns =>
    have hskip := (Accord.shifted bytes lines).skip .spaced c₁ c₁' hc₁
    rw [readDeclarations_of_some ho, readDeclarations_of_some ho', hskip.rest, hskip.place,
      hb.record hb .endOfText hskip.origin false]
    by_cases hrest : (grammar.skip .spaced c₁).rest = []
    · rw [if_pos hrest, if_pos hrest]
      have hend : (furtherDown bytes lines).node (endNode (grammar.skip .spaced c₁))
          (endNode (grammar.skip .spaced c₁')) := by
        refine Node.bare_congr ?_ rfl .nil
        simp only [Span.onLine, Span.between, hskip.place, Place.shift, Nat.add_zero]
      exact .inr ⟨_, _, _, _, _, _, rfl, rfl, List.rel_append hns (.cons hend .nil)⟩
    · rw [if_neg hrest, if_neg hrest]
      exact .inl ⟨_, rfl, rfl⟩

/-- Without the end of its text, a schema has the same declarations. -/
theorem Schema.ofNodes_of_end {d : Cursor} {f : Span → Span} {s : Schema}
    (h : Schema.ofNodes ((ns ++ [endNode d]).map (·.bare f)) = .ok s) :
    Schema.ofNodes (ns.map (·.bare f)) = .ok s := by
  have hend : Schema.ofNodes ([endNode d].map (·.bare f)) = .ok ⟨[]⟩ := rfl
  rw [List.map_append, Schema.ofNodes_append, hend] at h
  cases hs : Schema.ofNodes (ns.map (·.bare f)) with
  | error e =>
    rw [hs] at h
    cases h
  | ok t =>
    rw [hs] at h
    cases h
    exact congrArg (Except.ok ∘ Schema.mk) (List.append_nil _).symm

/-- The place behind a text and two line ends. -/
theorem Place.advance_blankLine (text : String) :
    (Place.origin.advance text.toList).advance ['\n', '\n'] =
      Place.origin.shift (text.utf8ByteSize + 2) (2 + text.toList.count '\n') := by
  have hoffset : ((Place.origin.advance text.toList).advance ['\n', '\n']).offset =
      0 + text.utf8ByteSize + 2 := by
    rw [Place.offset_advance, Place.offset_advance, ← Place.utf8ByteSize_eq_sum]
    rfl
  have hline : ((Place.origin.advance text.toList).advance ['\n', '\n']).line =
      1 + text.toList.count '\n' + 2 := by
    rw [Place.line_advance, Place.line_advance]
    rfl
  generalize (Place.origin.advance text.toList).advance ['\n', '\n'] = p at hoffset hline
  obtain ⟨offset, line⟩ := p
  simp only [Place.shift, Place.origin, Place.mk.injEq]
  simp only at hoffset hline
  omega

/-- What is read of the second text alone, and behind the first one. -/
theorem readDeclarations_blankLine {t₁ : String} (t₂ : String)
    (h : readDeclarations (.ofText t₁.toList) .none = ⟨some (c, ns), a⟩) :
    ∃ ns₁ ns₁' d, ns = ns₁ ++ [endNode d] ∧
      ns₁.map (·.bare (Span.onLine 0)) = ns₁'.map (·.bare (Span.onLine 0)) ∧
      ((∃ b, readDeclarations (.ofText t₂.toList) .none = ⟨none, b⟩ ∧
        readDeclarations (.ofText (t₁ ++ "\n\n" ++ t₂).toList) .none =
          ⟨none, b.shift (t₁.utf8ByteSize + 2) (2 + t₁.toList.count '\n')⟩) ∨
      ∃ d d' ns₂ ns₂' b b', readDeclarations (.ofText t₂.toList) .none = ⟨some (d, ns₂), b⟩ ∧
        readDeclarations (.ofText (t₁ ++ "\n\n" ++ t₂).toList) .none =
          ⟨some (d', ns₁' ++ ns₂'), b'⟩ ∧
        ns₂.map (·.bare (Span.onLine (2 + t₁.toList.count '\n'))) =
          ns₂'.map (·.bare (Span.onLine 0))) := by
  have hwhole : (t₁ ++ "\n\n" ++ t₂).toList = t₁.toList ++ blankLine t₂.toList := by
    rw [String.toList_append, String.toList_append, List.append_assoc]
    rfl
  obtain ⟨ns₁, ns₁', d, a₁, hns, hsame, ha₁, hrun⟩ := readDeclarations_append t₂.toList h
  refine ⟨ns₁, ns₁', d, hns, Node.map_bare_congr hsame, ?_⟩
  have hshifted : (Cursor.ofText t₂.toList).Shifted (t₁.utf8ByteSize + 2)
      (2 + t₁.toList.count '\n')
      ⟨(Place.origin.advance t₁.toList).advance ['\n', '\n'], t₂.toList⟩ :=
    ⟨rfl, Place.advance_blankLine t₁, fun _ => rfl⟩
  have hlater : Attempts.Later (t₁.utf8ByteSize + 2) (2 + t₁.toList.count '\n') .none a₁ := by
    refine .inr ⟨rfl, ?_⟩
    rw [Place.offset_advance, ← Place.utf8ByteSize_eq_sum] at ha₁
    have hzero : Place.origin.offset = 0 := rfl
    omega
  rw [hwhole, hrun]
  rcases readDeclarations_shifted hshifted hlater with
    ⟨b, hb, hb'⟩ | ⟨d, d', ns₂, ns₂', b, b', hread, hread', hnodes⟩
  · rw [hb']
    exact .inl ⟨b, hb, rfl⟩
  · rw [hread']
    exact .inr ⟨d, d', ns₂, ns₂', b, b', hread, rfl, Node.map_bare_congr hnodes⟩

/-- **Reading is compositional.** Behind a text that is a schema, and a blank line, another text is
read as it is alone. If it is a schema, the declarations are those of both, with their lines. If it
is not, the error is at the place where it is in the second text. -/
theorem Schema.parse_append {t₁ : String} {s₁ : Schema} (h : Schema.parse t₁ = .ok s₁)
    (t₂ : String) :
    (∃ s₂ s, Schema.parse t₂ = .ok s₂ ∧ Schema.parse (t₁ ++ "\n\n" ++ t₂) = .ok s ∧
      s.onLines 0 = (s₁.onLines 0).append (s₂.onLines (2 + t₁.toList.count '\n'))) ∨
    ∃ e e', Schema.parse t₂ = .error e ∧ Schema.parse (t₁ ++ "\n\n" ++ t₂) = .error e' ∧
      e'.offset = e.offset + t₁.utf8ByteSize + 2 ∧
      e'.line = e.line + 2 + t₁.toList.count '\n' := by
  cases hread : readDeclarations (.ofText t₁.toList) .none with
  | mk x a =>
    cases x with
    | none =>
      obtain ⟨e, he, -⟩ := Schema.parse_of_none hread
      cases h.symm.trans he
    | some z =>
      obtain ⟨s, hs, hnodes₁⟩ := Schema.parse_of_some hread
      cases h.symm.trans hs
      obtain ⟨ns₁, ns₁', d, hns, hsame, hcases⟩ := readDeclarations_blankLine t₂ hread
      have hfirst := hnodes₁ (Span.onLine 0)
      rw [hns] at hfirst
      have hfirst := Schema.ofNodes_of_end hfirst
      rcases hcases with ⟨b, hb, hb'⟩ | ⟨_, _, ns₂, ns₂', _, _, hread₂, hread', hlower⟩
      · obtain ⟨e, he, hoffset, hline⟩ := Schema.parse_of_none hb
        obtain ⟨e', he', hoffset', hline'⟩ := Schema.parse_of_none hb'
        refine .inr ⟨e, e', he, he', ?_, ?_⟩
        · rw [hoffset', hoffset, Nat.add_assoc]
          rfl
        · rw [hline', hline, Nat.add_assoc]
          rfl
      · obtain ⟨s₂, hs₂, hnodes₂⟩ := Schema.parse_of_some hread₂
        obtain ⟨s, hs, hnodes⟩ := Schema.parse_of_some hread'
        refine .inl ⟨s₂, s, hs₂, hs, ?_⟩
        have hboth := hnodes (Span.onLine 0)
        rw [List.map_append, ← hsame, ← hlower, Schema.ofNodes_append, hfirst, hnodes₂] at hboth
        exact (Except.ok.inj hboth).symm

/-- A schema with a brace in a comment, and with a comment that ends in a carriage return. -/
def people : String := "/// people\nmodel A \x7b\n  id Int @id // \x7d\n\x7d\n// end\r"

/-- Another schema. -/
def colours : String := " enum E \x7b\n  X\n\x7d\n"

theorem Schema.parse_append_people :
    (∃ s₁ s₂ s, Schema.parse people = .ok s₁ ∧ Schema.parse colours = .ok s₂ ∧
      Schema.parse (people ++ "\n\n" ++ colours) = .ok s ∧
      s.onLines 0 = (s₁.onLines 0).append (s₂.onLines 6)) ∧
    ∃ e e', Schema.parse "\nmodel \x7b" = .error e ∧
      Schema.parse (people ++ "\n\n" ++ "\nmodel \x7b") = .error e' ∧
      e'.offset = e.offset + 50 ∧ e'.line = e.line + 6 := by
  have hpeople : (Schema.parse people).toBool = true := by decide +kernel
  have hcolours : (Schema.parse colours).toBool = true := by decide +kernel
  have hbroken : (Schema.parse "\nmodel \x7b").toBool = false := by decide +kernel
  cases hs₁ : Schema.parse people with
  | error e =>
    rw [hs₁] at hpeople
    cases hpeople
  | ok s₁ =>
    constructor
    · rcases Schema.parse_append hs₁ colours with ⟨s₂, s, hs₂, hs, h⟩ | ⟨e, _, he, -⟩
      · exact ⟨s₁, s₂, s, rfl, hs₂, hs, h⟩
      · rw [he] at hcolours
        cases hcolours
    · rcases Schema.parse_append hs₁ "\nmodel \x7b" with ⟨s₂, _, hs₂, -⟩ | ⟨e, e', he, he', h⟩
      · rw [hs₂] at hbroken
        cases hbroken
      · exact ⟨e, e', he, he', h⟩

end Schemas

end Pseudonym

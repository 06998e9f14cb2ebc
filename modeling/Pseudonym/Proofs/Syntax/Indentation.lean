/-
# Indentation

Spaces and tabs at the ends of lines do not matter. A text that gets more of
them there is read as the same schema, on the same lines, or as none, provided
that no line feed is escaped: behind a backslash at the end of its line a blank
would be escaped in its place.

The two texts are read side by side. Inside a line the cursors stand at the
same characters; behind a line end the second one has further blanks before it,
which only the spaced mode skips. So the cursors are related in one way where
an expression starts and in another where it ends, and both depend on the mode.
A comment has the blanks at the end of its line in its text, but a schema does
not take them.

Key definitions: `Blanks`, `Reindented`, `Cursor.Aligned`, `Cursor.Before`,
`Cursor.After`, `Alignment.words`, `Alignment.indented`, `SameUpToBlanks`.
-/
import Mathlib.Data.List.TakeWhile
import Pseudonym.Proofs.Syntax.LineEndings

namespace Pseudonym

open Peg

/-! ### Blanks at the ends of lines -/

/-- Spaces and tabs. -/
def Blanks (b : List Char) : Prop := ∀ x ∈ b, grammar.blank x = true

/-- The second text has further blanks at the ends of its lines, and at the starts of all but the
first one. -/
inductive Reindented : List Char → List Char → Prop
  | done {b} (hb : Blanks b) : Reindented [] b
  | newline {b b' k k'} (hb : Blanks b) (hb' : Blanks b') (h : Reindented k k') :
    Reindented ('\n' :: k) (b ++ '\n' :: (b' ++ k'))
  | char {x k k'} (hx : x ≠ '\n') (h : Reindented k k') : Reindented (x :: k) (x :: k')

section Characters

variable {x : Char} {b w v k k' : List Char}

theorem Blanks.nil : Blanks [] := by simp [Blanks]

theorem Blanks.not_mem (hb : Blanks b) (hx : grammar.blank x = false) : x ∉ b := by
  intro hmem
  rw [hb x hmem] at hx
  cases hx

theorem Blanks.count (hb : Blanks b) : b.count '\n' = 0 :=
  List.count_eq_zero.mpr (hb.not_mem rfl)

theorem blank_iff : grammar.blank x = true ↔ x = ' ' ∨ x = '\t' := by simp [grammar]

theorem isBlank_of_blank (hx : grammar.blank x = true) : isBlank x = true := by
  rcases blank_iff.mp hx with rfl | rfl <;> rfl

theorem trimBlanks_append_blanks (w : List Char) (hb : Blanks b) :
    trimBlanks (w ++ b) = trimBlanks w := by
  have hblank : ∀ x ∈ b, isBlank x = true := fun x hx => isBlank_of_blank (hb x hx)
  rw [trimBlanks, trimBlanks, List.dropWhile_append]
  split
  next hempty =>
    have hdrop : b.dropWhile isBlank = [] := List.dropWhile_eq_nil_iff.mpr hblank
    rw [hdrop, List.isEmpty_iff.mp hempty]
  next =>
    rw [List.reverse_append, List.dropWhile_append_of_pos]
    exact fun x hx => hblank x (List.mem_reverse.mp hx)

namespace Reindented

/-- Inside a line the characters are the same. -/
theorem append (h : Reindented (w ++ k) v) (hw : '\n' ∉ w) :
    ∃ k', v = w ++ k' ∧ Reindented k k' := by
  induction w generalizing v with
  | nil => exact ⟨v, rfl, h⟩
  | cons x w ih =>
    obtain ⟨hx, hw⟩ := not_or.mp (mt List.mem_cons.mpr hw)
    cases h with
    | newline => exact absurd rfl hx
    | char _ h =>
      obtain ⟨k', rfl, hk'⟩ := ih h hw
      exact ⟨k', rfl, hk'⟩

/-- What the second text has of a line, up to a character that is no blank, the first one has. -/
theorem of_append (h : Reindented v (w ++ x :: k)) (hw : '\n' ∉ w) (hx : x ≠ '\n')
    (hblank : grammar.blank x = false) : ∃ k', v = w ++ x :: k' ∧ Reindented k' k := by
  generalize hr : w ++ x :: k = r at h
  induction h generalizing w with
  | done hb =>
    subst hr
    exact absurd (List.mem_append_right w List.mem_cons_self) (hb.not_mem hblank)
  | newline hb =>
    -- The character would be one of the blanks before the line end.
    have hr : (w ++ [x]) ++ k = _ := (List.append_assoc w [x] k).trans hr
    rcases List.append_eq_append_iff.mp hr with ⟨u, rfl, -⟩ | ⟨u, hu, hu'⟩
    · exact absurd (by simp) (hb.not_mem hblank)
    · cases u with
      | nil =>
        rw [List.append_nil] at hu
        subst hu
        exact absurd (by simp) (hb.not_mem hblank)
      | cons y u =>
        obtain ⟨rfl, -⟩ := List.cons.inj hu'
        have hmem : '\n' ∈ w ++ [x] := by
          rw [hu]
          simp
        simp [hw, hx.symm] at hmem
  | @char y v v' hy h ih =>
    cases w with
    | nil =>
      obtain ⟨rfl, rfl⟩ := List.cons.inj hr
      exact ⟨v, rfl, h⟩
    | cons z w =>
      obtain ⟨rfl, htail⟩ := List.cons.inj hr
      obtain ⟨k', rfl, hk'⟩ := ih (fun hmem => hw (List.mem_cons_of_mem z hmem)) htail
      exact ⟨k', rfl, hk'⟩

/-- Behind the blanks of a line, both texts go on in the same way. -/
theorem skip (h : Reindented v w) : ∃ b b' k k', Blanks b ∧ Blanks b' ∧ v = b ++ k ∧
    w = b ++ (b' ++ k') ∧ grammar.Flush k' ∧ grammar.Flush k ∧ Reindented k k' := by
  induction h with
  | @done b hb => exact ⟨[], b, [], [], .nil, hb, rfl, by simp, nofun, nofun, .done .nil⟩
  | @newline b b' k k' hb hb' h =>
    have hflush : ∀ k, grammar.Flush ('\n' :: k) := by
      rintro k _ ⟨⟩
      rfl
    exact ⟨[], b, _, _, .nil, hb, rfl, rfl, hflush _, hflush _, .newline .nil hb' h⟩
  | @char x k k' hx h ih =>
    by_cases hblank : grammar.blank x = true
    · obtain ⟨b, b', v, v', hb, hb', rfl, rfl, hk⟩ := ih
      refine ⟨x :: b, b', v, v', ?_, hb', rfl, rfl, hk⟩
      intro y hy
      rcases List.mem_cons.mp hy with rfl | hy
      · exact hblank
      · exact hb y hy
    · have hflush : ∀ k, grammar.Flush (x :: k) := by
        rintro k _ ⟨⟩
        simpa using hblank
      exact ⟨[], [], _, _, .nil, .nil, rfl, rfl, hflush _, hflush _, .char hx h⟩

/-- The rest of a line is the same but for blanks at its end. -/
theorem lineEnd (h : Reindented v w) : ∃ u b k k', '\n' ∉ u ∧ Blanks b ∧ v = u ++ k ∧
    w = (u ++ b) ++ k' ∧ (∀ x ∈ k.head?, x = '\n') ∧ (∀ x ∈ k'.head?, x = '\n') ∧
    Reindented k k' := by
  induction h with
  | @done b hb =>
    exact ⟨[], b, [], [], List.not_mem_nil, hb, rfl, by simp, nofun, nofun, .done .nil⟩
  | @newline b b' k k' hb hb' h =>
    have hline : ∀ k, ∀ x ∈ ('\n' :: k).head?, x = '\n' := by
      rintro k _ ⟨⟩
      rfl
    exact ⟨[], b, _, _, List.not_mem_nil, hb, rfl, rfl, hline _, hline _, .newline .nil hb' h⟩
  | @char x k k' hx h ih =>
    obtain ⟨u, b, v, v', hu, hb, rfl, rfl, hk⟩ := ih
    exact ⟨x :: u, b, v, v', by simp [hu, hx.symm], hb, rfl, rfl, hk⟩

theorem eq_nil (h : Reindented k []) : k = [] := by
  generalize hr : ([] : List Char) = r at h
  cases h with
  | done => exact hr
  | newline => simp at hr
  | char => cases hr

theorem eq_newline (h : Reindented k ('\n' :: k')) : ['\n'] <+: k := by
  generalize hr : '\n' :: k' = r at h
  cases h with
  | done hb =>
    subst hr
    exact absurd List.mem_cons_self (hb.not_mem rfl)
  | newline => exact ⟨_, rfl⟩
  | char hx => exact absurd (List.cons.inj hr).1.symm hx

theorem isInfix_escape (h : Reindented v w) (hw : ['\\', '\n'] <:+: w) : ['\\', '\n'] <:+: v := by
  have hblanks : ∀ {b k : List Char}, Blanks b → ['\\', '\n'] <:+: b ++ k →
      ['\\', '\n'] <:+: k := by
    intro b k hb hfound
    induction b with
    | nil => exact hfound
    | cons x b ih =>
      rcases List.infix_cons_iff.mp hfound with hstart | hfound
      · obtain ⟨rfl, -⟩ := List.cons_prefix_cons.mp hstart
        exact absurd List.mem_cons_self (hb.not_mem rfl)
      · exact ih (fun y hy => hb y (List.mem_cons_of_mem x hy)) hfound
  induction h with
  | done hb =>
    have hnil := hblanks (k := []) hb (by simpa using hw)
    exact absurd hnil (by simp)
  | newline hb hb' _ ih =>
    rcases List.infix_cons_iff.mp (hblanks hb hw) with hstart | hfound
    · exact absurd (List.cons_prefix_cons.mp hstart).1 (by decide)
    · exact List.infix_cons_iff.mpr (.inr (ih (hblanks hb' hfound)))
  | @char x k k' hx h ih =>
    refine List.infix_cons_iff.mpr ?_
    rcases List.infix_cons_iff.mp hw with hstart | hfound
    · -- A line feed directly behind the backslash was there before.
      obtain ⟨rfl, k₁, rfl⟩ := List.cons_prefix_cons.mp hstart
      exact .inl (List.cons_prefix_cons.mpr ⟨rfl, h.eq_newline⟩)
    · exact .inr (ih hfound)

theorem mem (h : Reindented v w) (hx : grammar.blank x = false) (hmem : x ∈ w) : x ∈ v := by
  induction h with
  | done hb => exact absurd hmem (hb.not_mem hx)
  | newline hb hb' _ ih =>
    rcases List.mem_append.mp hmem with hmem | hmem
    · exact absurd hmem (hb.not_mem hx)
    · rcases List.mem_cons.mp hmem with rfl | hmem
      · exact List.mem_cons_self
      · rcases List.mem_append.mp hmem with hmem | hmem
        · exact absurd hmem (hb'.not_mem hx)
        · exact List.mem_cons_of_mem _ (ih hmem)
  | char _ _ ih =>
    rcases List.mem_cons.mp hmem with rfl | hmem
    · exact List.mem_cons_self
    · exact List.mem_cons_of_mem _ (ih hmem)

theorem fed (h : Reindented v w) (hv : LineFed v) : LineFed w :=
  ⟨fun hmem => hv.noReturn (h.mem rfl hmem), fun hfound => hv.noEscape (h.isInfix_escape hfound)⟩

end Reindented

/-- Two lines are the same but for blanks that the second one has more at its ends. -/
def SameUpToBlanks (line line' : List Char) : Prop :=
  ∃ b b', Blanks b ∧ Blanks b' ∧ line' = b ++ (line ++ b')

/-- A text whose lines have further blanks at their ends, the start of the first line apart. -/
theorem Reindented.of_tail {line : List Char} {lines lines' : List (List Char)}
    (hw : w.splitOn '\n' = line :: lines) (hb : Blanks b)
    (h : List.Forall₂ SameUpToBlanks lines lines') :
    Reindented w (['\n'].intercalate ((line ++ b) :: lines')) := by
  induction w generalizing line lines lines' b with
  | nil =>
    obtain ⟨rfl, rfl⟩ := List.cons.inj hw
    cases h
    simpa using Reindented.done hb
  | cons x w ih =>
    rw [List.splitOn, List.splitOnP_cons_eq_if_modifyHead] at hw
    obtain ⟨line₁, lines₁, hlines⟩ := List.exists_cons_of_ne_nil (List.splitOn_ne_nil '\n' w)
    rw [← List.splitOn, hlines] at hw
    by_cases hx : x = '\n'
    · subst hx
      obtain ⟨rfl, rfl⟩ := List.cons.inj hw
      cases h with
      | cons hline h =>
        obtain ⟨b₁, b₂, hb₁, hb₂, rfl⟩ := hline
        have hrest := ih hlines hb₂ h
        rw [List.nil_append, List.intercalate_cons_cons, intercalate_append]
        simpa using Reindented.newline hb hb₁ hrest
    · rw [if_neg (by simpa using hx)] at hw
      obtain ⟨rfl, rfl⟩ := List.cons.inj hw
      have hrest := ih hlines hb h
      rw [show (x :: line₁) ++ b = [x] ++ (line₁ ++ b) from rfl, intercalate_append]
      exact .char hx hrest

theorem Reindented.of_lines
    (h : List.Forall₂ SameUpToBlanks (w.splitOn '\n') (v.splitOn '\n')) :
    ∃ b k, Blanks b ∧ v = b ++ k ∧ Reindented w k := by
  have hv : ['\n'].intercalate (v.splitOn '\n') = v := List.intercalate_splitOn '\n'
  generalize hlines : w.splitOn '\n' = lines at h
  generalize v.splitOn '\n' = lines' at h hv
  cases h with
  | nil => exact absurd hlines (List.splitOn_ne_nil '\n' w)
  | cons hline h =>
    obtain ⟨b, b', hb, hb', rfl⟩ := hline
    rw [intercalate_append] at hv
    exact ⟨b, _, hb, hv.symm, .of_tail hlines hb' h⟩

end Characters

/-! ### Cursors -/

namespace Cursor

/-- The cursors stand at the same character of a line, the first one in the text `t`. -/
structure Aligned (t : List Char) (c c' : Cursor) : Prop where
  rest : Reindented c.rest c'.rest
  line : c'.place.line = c.place.line
  fed : LineFed c.rest
  within : c.rest <:+ t

/-- The second cursor may have further blanks before it. -/
def Indented (t : List Char) (c c' : Cursor) : Prop :=
  ∃ b k, Blanks b ∧ c'.rest = b ++ k ∧ c.Aligned t ⟨c'.place, k⟩

/-- The cursors have come from such cursors over the same word. -/
def SameWord (t : List Char) (c c' c₁ c₁' : Cursor) : Prop :=
  c₁.Aligned t c₁' ∧ ∃ w, Past w c c₁ ∧ Past w c' c₁'

/-- The cursors have come from such cursors over the same characters, but for blanks at the end of
the second ones. -/
def SameLine (t : List Char) (c c' c₁ c₁' : Cursor) : Prop :=
  c₁.Aligned t c₁' ∧ ∃ w b, Blanks b ∧ Past w c c₁ ∧ Past (w ++ b) c' c₁'

/-- How cursors are related where an expression starts: no blanks are skipped any more. -/
def Before (t : List Char) : Mode → Cursor → Cursor → Prop
  | .spaced, c, c' => c.Aligned t c' ∧ grammar.Flush c'.rest
  | .compact, c, c' => c.Aligned t c'
  | .atomic, _, _ => False

/-- How cursors are related where an expression ends: there may be blanks to be skipped at the
start of a line. -/
def After (t : List Char) : Mode → Cursor → Cursor → Prop
  | .spaced, c, c' => c.Aligned t c' ∨ c.Indented t c' ∧ ∀ x, x :: c.rest <:+ t → x = '\n'
  | .compact, c, c' => c.Aligned t c'
  | .atomic, _, _ => False

variable {t w w' k k' : List Char} {c c' c₁ c₁' c₂ c₂' : Cursor}

theorem Aligned.indented (h : c.Aligned t c') : c.Indented t c' := ⟨[], c'.rest, .nil, rfl, h⟩

theorem Aligned.after (h : c.Aligned t c') {m : Mode} (hm : m ≠ .atomic) : After t m c c' := by
  cases m with
  | spaced => exact .inl h
  | compact => exact h
  | atomic => exact absurd rfl hm

theorem Before.aligned {m : Mode} (h : Before t m c c') : c.Aligned t c' := by
  cases m with
  | spaced => exact h.1
  | compact => exact h
  | atomic => exact h.elim

theorem Before.ne_atomic {m : Mode} (h : Before t m c c') : m ≠ .atomic := by
  rintro rfl
  exact h

/-- Ahead both ways, over as many line ends. -/
theorem Aligned.move (h : c.Aligned t c') (hrest : c.rest = w ++ k) (hk : Reindented k k')
    (hline : w'.count '\n' = w.count '\n') :
    Aligned t ⟨c.place.advance w, k⟩ ⟨c'.place.advance w', k'⟩ := by
  have hfed := h.fed
  have hwithin := h.within
  rw [hrest] at hfed hwithin
  refine ⟨hk, ?_, hfed.append_right, (List.suffix_append w k).trans hwithin⟩
  rw [Place.line_advance, Place.line_advance, h.line, hline]

/-- Behind a word without line ends the second cursor has the same word behind it. -/
theorem Aligned.past (h : c.Aligned t c') (hrest : c.rest = w ++ k) (hw : '\n' ∉ w) :
    ∃ k', c'.rest = w ++ k' ∧
      SameWord t c c' ⟨c.place.advance w, k⟩ ⟨c'.place.advance w, k'⟩ := by
  have hreindented := h.rest
  rw [hrest] at hreindented
  obtain ⟨k', hrest', hk'⟩ := hreindented.append hw
  exact ⟨k', hrest', h.move hrest hk' rfl, w, ⟨hrest, rfl⟩, ⟨hrest', rfl⟩⟩

theorem SameWord.trans (h : SameWord t c c' c₁ c₁') (h' : SameWord t c₁ c₁' c₂ c₂') :
    SameWord t c c' c₂ c₂' := by
  obtain ⟨-, w, hw, hw'⟩ := h
  obtain ⟨hc₂, v, hv, hv'⟩ := h'
  exact ⟨hc₂, w ++ v, hw.trans hv, hw'.trans hv'⟩

theorem SameWord.eq (h : SameWord t c c' c₁ c₁') (hw : Past w c c₁) (hw' : Past w' c' c₁') :
    w = w' := by
  obtain ⟨-, v, hv, hv'⟩ := h
  rw [← textUpTo_of_past hw, textUpTo_of_past hv, ← textUpTo_of_past hv', textUpTo_of_past hw']

theorem Indented.skip (h : c.Indented t c') :
    Before t .spaced (grammar.skip .spaced c) (grammar.skip .spaced c') := by
  obtain ⟨p, rest⟩ := c
  obtain ⟨p', rest'⟩ := c'
  obtain ⟨b, k, hb, rfl, h⟩ := h
  obtain ⟨b₁, b₂, v, v', hb₁, hb₂, rfl, rfl, hv', hv, hvv'⟩ := h.rest.skip
  have hskip : ∀ {b : List Char} {k} (p : Place), Blanks b →
      grammar.skip .spaced ⟨p, b ++ k⟩ = grammar.skip .spaced ⟨p.advance b, k⟩ :=
    fun p hb => Grammar.skip_blanks _ p (List.all_eq_true.mpr hb)
  rw [hskip p hb₁, Grammar.skip_of_flush hv, hskip p' hb, hskip _ hb₁, hskip _ hb₂,
    Grammar.skip_of_flush hv', ← Place.advance_append, ← Place.advance_append]
  refine ⟨h.move rfl hvv' ?_, hv'⟩
  simp [hb.count, hb₁.count, hb₂.count]

theorem After.skip (m : Mode) (c c' : Cursor) (h : After t m c c') :
    Before t m (grammar.skip m c) (grammar.skip m c') := by
  cases m with
  | spaced => exact (h.elim Aligned.indented And.left).skip
  | compact => exact h
  | atomic => exact h

theorem eq_of_cons_suffix {x y : Char} (hx : x :: k <:+ t) (hy : y :: k <:+ t) : x = y := by
  have hsuffix : x :: k <:+ y :: k := List.suffix_of_suffix_length_le hx hy (by simp)
  exact (List.cons.inj (hsuffix.eq_of_length (by simp))).1

/-- A line end leads to the start of a line. -/
theorem Before.newline? (h : Before t .spaced c c') :
    Option.Rel (After t .spaced) c.newline? c'.newline? := by
  obtain ⟨h, hflush⟩ := h
  obtain ⟨p, rest⟩ := c
  obtain ⟨p', rest'⟩ := c'
  have hrest : Reindented rest rest' := h.rest
  cases hrest with
  | done hb =>
    cases rest' with
    | nil => exact .none
    | cons x k => exact absurd List.mem_cons_self (hb.not_mem (hflush x rfl))
  | @newline b b' k k' hb hb' hk =>
    cases b with
    | nil =>
      refine .some (.inr ⟨⟨b', k', hb', rfl, h.move (w := ['\n']) rfl hk rfl⟩, ?_⟩)
      exact fun x hx => eq_of_cons_suffix hx h.within
    | cons x b => exact absurd List.mem_cons_self (hb.not_mem (hflush x rfl))
  | @char x k k' hx hk =>
    have hreturn := h.fed.ne_return
    rw [newline?_of_ne hx (.inl hreturn), newline?_of_ne hx (.inl hreturn)]
    exact .none

theorem Before.rest_eq_nil (h : Before t .spaced c c') : c.rest = [] ↔ c'.rest = [] := by
  obtain ⟨h, hflush⟩ := h
  obtain ⟨p, rest⟩ := c
  obtain ⟨p', rest'⟩ := c'
  have hrest : Reindented rest rest' := h.rest
  constructor
  · rintro rfl
    cases rest' with
    | nil => rfl
    | cons x k =>
      cases hrest with
      | done hb => exact absurd List.mem_cons_self (hb.not_mem (hflush x rfl))
  · rintro rfl
    exact hrest.eq_nil

theorem lineEnd_append {p : Place} (hw : '\n' ∉ w) (hreturn : '\r' ∉ w)
    (hk : ∀ x ∈ k.head?, x = '\n') : lineEnd ⟨p, w ++ k⟩ = ⟨p.advance w, k⟩ := by
  induction w generalizing p with
  | nil =>
    cases k with
    | nil => rfl
    | cons x k =>
      obtain rfl := hk x rfl
      exact lineEnd_of_newline? rfl
  | cons x w ih =>
    obtain ⟨hx, hw⟩ := not_or.mp (mt List.mem_cons.mpr hw)
    obtain ⟨hx', hreturn⟩ := not_or.mp (mt List.mem_cons.mpr hreturn)
    rw [List.cons_append, lineEnd_cons (newline?_of_ne (Ne.symm hx) (.inl (Ne.symm hx'))),
      ih hw hreturn, Place.advance_cons]

theorem Aligned.lineEnd (h : c.Aligned t c') : c.SameLine t c' c.lineEnd c'.lineEnd := by
  obtain ⟨p, rest⟩ := c
  obtain ⟨p', rest'⟩ := c'
  obtain ⟨w, b, k, k', hw, hb, rfl, rfl, hk, hk', hkk'⟩ := h.rest.lineEnd
  have hreturn : '\r' ∉ w := fun hmem => h.fed.noReturn (List.mem_append_left k hmem)
  have hw' : '\n' ∉ w ++ b := List.not_mem_append hw (hb.not_mem rfl)
  have hreturn' : '\r' ∉ w ++ b := List.not_mem_append hreturn (hb.not_mem rfl)
  rw [lineEnd_append hw hreturn hk, lineEnd_append hw' hreturn' hk']
  refine ⟨h.move rfl hkk' ?_, w, b, hb, past_mk p w k, past_mk p' (w ++ b) k'⟩
  rw [List.count_append, hb.count, Nat.add_zero]

end Cursor

/-! ### Words -/

/-- Whether an expression is a word without blanks and line ends, or a letter or digit. -/
def Peg.Expr.inWord : Expr Rule → Bool
  | .word w => !w.isEmpty && w.all fun x => !grammar.blank x && x != '\n'
  | .one cls => cls != .any
  | _ => false

/-- The rules that read one word and leave it as their text. -/
def Rule.isWord : Rule → Bool
  | .identifier | .path | .modelKeyword | .enumKeyword | .configKeyword | .number | .boolean => true
  | _ => false

section Readings

variable {M : Matching Rule} {m : Mode} {l : Look} {s : Setting} {t : List Char} {c c' : Cursor}
  {e : Expr Rule} {r : Rule}

theorem Peg.Expr.inWord_word {w : List Char} : (Expr.word w).inWord = true ↔
    w ≠ [] ∧ ∀ x ∈ w, grammar.blank x = false ∧ x ≠ '\n' := by
  simp [Expr.inWord]

theorem Cursor.Aligned.beside_inWord (h : c.Aligned t c') (he : e.inWord = true) :
    grammar.Beside M (Cursor.SameWord t c c') s c c' (.expr e) := by
  cases e with
  | word w =>
    obtain ⟨hne, hw⟩ := Expr.inWord_word.mp he
    have hline : '\n' ∉ w := fun hmem => (hw _ hmem).2 rfl
    refine .word ?_ fun k hk => h.past hk hline
    rintro ⟨k, hk⟩
    rcases List.eq_nil_or_concat w with rfl | ⟨v, x, rfl⟩
    · exact absurd rfl hne
    · obtain ⟨hblank, hx⟩ := hw x (by simp)
      rw [List.concat_eq_append] at *
      have hrest := h.rest
      rw [← hk, List.append_assoc] at hrest
      have hv : '\n' ∉ v := fun hmem => hline (List.mem_append_left _ hmem)
      obtain ⟨k', hk', -⟩ := hrest.of_append hv hx hblank
      exact ⟨k', by rw [hk', List.append_assoc]; rfl⟩
  | one cls =>
    have hcls : ∀ {x}, cls.holds x = true → grammar.blank x = false ∧ x ≠ '\n' := by
      intro x hx
      have hclear : cls.holds ' ' = false ∧ cls.holds '\t' = false ∧ cls.holds '\n' = false := by
        cases cls with
        | any => cases he
        | _ => exact ⟨rfl, rfl, rfl⟩
      refine ⟨Bool.eq_false_iff.mpr fun hblank => ?_, ?_⟩
      · rcases blank_iff.mp hblank with rfl | rfl
        · simp [hclear.1] at hx
        · simp [hclear.2.1] at hx
      · rintro rfl
        simp [hclear.2.2] at hx
    refine .one (fun x k hk hx => ?_) fun x k hk hx => ?_
    · have hrest := h.rest
      rw [hk] at hrest
      obtain ⟨k', hk', -⟩ := hrest.of_append (w := []) List.not_mem_nil (hcls hx).2 (hcls hx).1
      exact ⟨x, k', hk', hx⟩
    · obtain ⟨k', hk', hpast⟩ := h.past (w := [x]) hk (by simpa using (hcls hx).2.symm)
      exact ⟨x, k', hk', hx, hpast⟩
  | _ => cases he

end Readings

/-- Words are the same, read from `c₀` and `c₀'`. -/
def Alignment.words (t : List Char) (c₀ c₀' : Cursor) :
    Alignment grammar onSameLines (fun m c c' => m = .atomic ∧ c₀.SameWord t c₀' c c')
      (fun m c c' => m = .atomic ∧ c₀.SameWord t c₀' c c') where
  atom _ e := e.inWord
  calls _ r := r == .identifier
  stay _ _ _ := id
  skip := by
    rintro _ c c' ⟨rfl, h⟩
    exact ⟨rfl, h⟩
  atoms := by
    rintro _ e he l c c' ⟨rfl, h⟩
    exact (h.1.beside_inWord he).mono fun _ _ _ _ _ h' => ⟨rfl, h.trans h'⟩
  rules := by
    rintro _ r hr l c c' ⟨rfl, h⟩ hbody
    obtain rfl := beq_iff_eq.mp hr
    exact survey.toLayering.beside_call (hbody ⟨rfl, h⟩) (fun _ _ _ _ _ _ _ => trivial)
      fun hkind => absurd rfl hkind
  bodies m r hr := by
    obtain rfl := beq_iff_eq.mp hr
    rfl

section Leaves

variable {M : Matching Rule} {m : Mode} {l : Look} {s : Setting} {t w k : List Char}
  {c c' : Cursor} {r : Rule}

/-- The rules for words leave the same words. -/
theorem Cursor.Aligned.beside_isWord (h : c.Aligned t c') (hr : r.isWord = true) :
    grammar.Beside onSameLines (c.SameWord t c') ⟨m, l⟩ c c' (.expr (.call r)) := by
  have hkind : Grammar.kind r = .atomic := by
    cases r <;> first | rfl | cases hr
  have hsame : c.SameWord t c' c c' := ⟨h, [], .refl c, .refl c'⟩
  have hbody : grammar.Beside onSameLines (c.SameWord t c') ⟨.atomic, l⟩ c c'
      (.expr (Grammar.body r)) := by
    refine ((Alignment.words t c c').beside (m := .atomic) (t := .expr (Grammar.body r))
      survey.toLayering (survey.steady r) ?_ ⟨rfl, hsame⟩).mono fun _ _ _ _ _ h => h.2
    cases r <;> first | rfl | cases hr
  refine survey.toLayering.beside_call ?_ (fun _ _ _ _ _ _ _ => trivial) ?_
  · show grammar.Beside onSameLines _ ⟨(Grammar.kind r).innerMode m, l⟩ c c'
      (.expr (Grammar.body r))
    rw [hkind]
    exact hbody
  · intro _ w w' c₁ c₁' ns ns' hw hw' hc₁ hns
    obtain rfl := hc₁.eq hw hw'
    refine Node.bare_congr ?_ rfl hns
    simp only [Span.onLine, Span.between, h.line]

/-- The text of a comment has the blanks at the end of its line, but a schema does not. -/
theorem Cursor.Aligned.beside_commentText (h : c.Aligned t c') :
    grammar.Beside onSameLines (Cursor.Aligned t) ⟨m, l⟩ c c' (.expr (.call .commentText)) := by
  have hbody : grammar.Beside onSameLines (c.SameLine t c') ⟨.atomic, l⟩ c c'
      (.expr (.many commentChar)) :=
    survey.toLayering.beside_silent (f := fun c => some c.lineEnd) derives_lineEnd rfl rfl
      (.some h.lineEnd)
  refine (survey.toLayering.beside_call (r := .commentText) hbody (fun _ _ _ _ _ _ _ => trivial)
    ?_).mono fun _ _ _ _ _ h => h.1
  rintro - w w' c₁ c₁' ns ns' hw hw' ⟨-, v, b, hb, hv, hv'⟩ hns
  refine Node.bare_congr ?_ ?_ hns
  · simp only [Span.onLine, Span.between, h.line]
  · show trimBlanks w = trimBlanks w'
    rw [← Cursor.textUpTo_of_past hw, Cursor.textUpTo_of_past hv, ← Cursor.textUpTo_of_past hw',
      Cursor.textUpTo_of_past hv', trimBlanks_append_blanks v hb]

/-! ### Strings -/

/-- A text between quotes. -/
def inQuotes (w : List Char) : List Char := '"' :: (w ++ ['"'])

/-- The tree of a string at a place. -/
def literalNode (p : Place) (w : List Char) : Tree :=
  ⟨.stringLiteral, .between p (p.advance (inQuotes w)), inQuotes w,
    [⟨.stringContent, .between (p.advance ['"']) (p.advance ('"' :: w)), w, []⟩]⟩

theorem derives_string (hw : IsContent w) (p : Place) (k : List Char) :
    Derives grammar m (.expr (.call .stringLiteral)) ⟨p, inQuotes w ++ k⟩
      (some (⟨p.advance (inQuotes w), k⟩, [literalNode p w])) := by
  obtain ⟨c, ns, hunits, hc, hns⟩ := reads_units hw k (p.advance ['"'])
  obtain rfl : c = ⟨p.advance ('"' :: w), '"' :: k⟩ := hc
  obtain rfl : ns = [] := hns
  have hcontent := Derives.call_of_past (m := .compact) (g := grammar) (r := .stringContent) hunits
    nofun (Cursor.past_mk _ w ('"' :: k))
  have hclose := derives_word (m := .compact) ['"'] (p.advance ('"' :: w)) k
  rw [← Place.advance_append] at hclose
  have hpast := Cursor.past_mk p (inQuotes w) k
  refine .call_of_past (g := grammar) (r := .stringLiteral) ?_ nofun hpast
  have hrest : inQuotes w ++ k = ['"'] ++ (w ++ '"' :: k) := by simp [inQuotes]
  rw [hrest]
  exact .seq (derives_word ['"'] p _) (.seq hcontent hclose rfl) rfl

theorem past_string {ns : List Tree}
    (h : Parses m (.call .stringLiteral) c c' ns) :
    ∃ w, IsContent w ∧ Cursor.Past (inQuotes w) c c' := by
  obtain ⟨children, hbody, -⟩ := h.of_call_node nofun
  obtain ⟨c₁, _, _, hopen, hrest, -⟩ := hbody.of_seq
  obtain ⟨c₂, _, _, hcontent, hclose, -⟩ := hrest.of_seq
  obtain ⟨_, hunits, -⟩ := hcontent.of_call_node nofun
  obtain ⟨w, hw, hpast⟩ := of_units hunits
  exact ⟨w, hw, hopen.of_word.1.trans (hpast.trans hclose.of_word.1)⟩

/-- Where no line feed is escaped, a string is on one line. -/
theorem IsContent.not_mem (hw : IsContent w) (hfed : LineFed (inQuotes w ++ k)) : '\n' ∉ w := by
  obtain ⟨units, hunits, rfl⟩ := hw
  intro hmem
  obtain ⟨u, hu, hmem⟩ := List.mem_flatten.mp hmem
  rcases hunits u hu with ⟨x, rfl⟩ | ⟨x, rfl, -, -, hx⟩
  · obtain rfl : '\n' = x := by simpa using hmem
    have hfound := (List.infix_of_mem_flatten hu).trans (List.infix_append ['"'] _ ('"' :: k))
    refine hfed.noEscape (hfound.trans ?_)
    simp [inQuotes]
  · exact hx (List.mem_singleton.mp hmem).symm

theorem not_mem_inQuotes (hw : '\n' ∉ w) : '\n' ∉ inQuotes w := by
  simp [inQuotes, hw]

theorem rel_string (h : c.Aligned t c') {x x' : Option (Cursor × List Tree)}
    (hx : Derives grammar m (.expr (.call .stringLiteral)) c x)
    (hx' : Derives grammar m (.expr (.call .stringLiteral)) c' x') :
    Option.Rel (fun y y' => y.1.Aligned t y'.1 ∧ List.Forall₂ onSameLines.node y.2 y'.2) x x' := by
  obtain ⟨p, rest⟩ := c
  obtain ⟨p', rest'⟩ := c'
  cases x with
  | some y =>
    -- The same string stands at the second cursor.
    obtain ⟨⟨p₁, k⟩, ns⟩ := y
    obtain ⟨w, hw, hpast⟩ := past_string hx
    obtain rfl : rest = inQuotes w ++ k := hpast.rest
    obtain ⟨k', hk', hsame, -⟩ := h.past rfl (not_mem_inQuotes (hw.not_mem h.fed))
    obtain rfl : rest' = inQuotes w ++ k' := hk'
    cases hx.unique (derives_string hw p k)
    cases hx'.unique (derives_string hw p' k')
    have hline : p'.line = p.line := h.line
    refine .some ⟨hsame, .cons (Node.bare_congr ?_ rfl (.cons ?_ .nil)) .nil⟩
    · simp only [Span.onLine, Span.between, hline]
    · refine Node.bare_congr ?_ rfl .nil
      simp only [Span.onLine, Span.between, Place.line_advance, hline]
  | none =>
    cases x' with
    | none => exact .none
    | some y' =>
      obtain ⟨⟨p₁', k'⟩, ns'⟩ := y'
      obtain ⟨w, hw, hpast⟩ := past_string hx'
      obtain rfl : rest' = inQuotes w ++ k' := hpast.rest
      have hline := hw.not_mem (h.rest.fed h.fed)
      have hrest : Reindented rest (('"' :: w) ++ '"' :: k') := by simpa [inQuotes] using h.rest
      obtain ⟨k, rfl, -⟩ := hrest.of_append (by simp [hline]) (by decide) rfl
      have hread := derives_string (m := m) hw p k
      rw [show inQuotes w ++ k = ('"' :: w) ++ '"' :: k by simp [inQuotes]] at hread
      cases hx.unique hread

theorem Cursor.Aligned.beside_string (h : c.Aligned t c') :
    grammar.Beside onSameLines (Cursor.Aligned t) ⟨m, l⟩ c c' (.expr (.call .stringLiteral)) :=
  survey.toLayering.beside_derived rfl (fun _ _ => trivial)
    (survey.toLayering.run_derives (l := l) (a := .none) rfl)
    (survey.toLayering.run_derives (l := l) (a := .none) rfl)
    (rel_string h (survey.toLayering.run_derives rfl) (survey.toLayering.run_derives rfl))

end Leaves

/-! ### The grammar -/

section Rules

variable {m : Mode} {l : Look} {t w : List Char} {c c' : Cursor} {r : Rule} {p q : Expr Rule}

/-- A rule that is no word leaves the same tree if its body does. -/
theorem beside_rule {B : Cursor → Cursor → Prop} (hr : Grammar.kind r ≠ .atomic)
    (hline : c'.place.line = c.place.line)
    (h : grammar.Beside onSameLines B ⟨(Grammar.kind r).innerMode m, l⟩ c c'
      (.expr (Grammar.body r))) :
    grammar.Beside onSameLines B ⟨m, l⟩ c c' (.expr (.call r)) := by
  refine survey.toLayering.beside_call h (fun _ _ _ _ _ _ _ => trivial) ?_
  intro _ w w' c₁ c₁' ns ns' _ _ _ hns
  refine Node.bare_congr ?_ (Rule.kept_of_kind hr w w') hns
  simp only [Span.onLine, Span.between, hline]

/-- What opens with a word and ends with a bracket may be read in the spaced mode inside a compact
rule: it starts at no blank, and ends at no start of a line. -/
theorem beside_bracketed (hw : (Expr.word w).inWord = true)
    (hs : (Expr.seq (.word w) (.seq p (.seq q (Grammar.lit ")")))).steady survey.empty = true)
    (h : c.Aligned t c')
    (hbody : Cursor.Before t .spaced c c' → grammar.Beside onSameLines (Cursor.After t .spaced)
      ⟨.spaced, l⟩ c c' (.expr (.seq (.word w) (.seq p (.seq q (Grammar.lit ")")))))) :
    grammar.Beside onSameLines (Cursor.Aligned t) ⟨.spaced, l⟩ c c'
      (.expr (.seq (.word w) (.seq p (.seq q (Grammar.lit ")"))))) := by
  by_cases hflush : grammar.Flush c'.rest
  · refine (hbody ⟨h, hflush⟩).mono fun c₁ c₁' ns a hres hc₁ => ?_
    rcases hc₁ with hc₁ | ⟨-, hopens⟩
    · exact hc₁
    · have hread := survey.toLayering.run_derives (l := l) (a := a) (m := .spaced) (c := c)
        (t := .expr (.seq (.word w) (.seq p (.seq q (Grammar.lit ")"))))) hs
      rw [hres] at hread
      obtain ⟨c₂, _, hc₂, hread⟩ := hread.of_seq_last
      obtain ⟨c₃, _, hc₃, hread⟩ := hread.of_seq_last
      obtain ⟨c₄, _, hc₄, hread⟩ := hread.of_seq_last
      have hclose : c₄.rest = ')' :: c₁.rest := hread.of_word.1.rest
      rw [hclose] at hc₄
      cases hopens ')' (((hc₄.trans hc₃).trans hc₂).trans h.within)
  · obtain ⟨hne, hclear⟩ := Expr.inWord_word.mp hw
    have hstart : ¬ w <+: c'.rest := by
      rintro ⟨k, hk⟩
      refine hflush ?_
      cases w with
      | nil => exact absurd rfl hne
      | cons x w =>
        rw [← hk]
        rintro _ ⟨⟩
        exact (hclear x List.mem_cons_self).1
    have hword : grammar.Beside onSameLines (fun _ _ => False) ⟨.spaced, l⟩ c c'
        (.expr (.word w)) := by
      refine .word (fun hword => absurd hword hstart) fun k hk => ?_
      obtain ⟨k', hk', -⟩ := h.past hk fun hmem => (hclear _ hmem).2 rfl
      exact absurd ⟨k', hk'.symm⟩ hstart
    exact survey.toLayering.beside_seq hs hword fun _ _ _ _ _ h => h.elim

end Rules

/-- The trees of a text and of the same text with other indentation are equal up to offsets. -/
def Alignment.indented (t : List Char) :
    Alignment grammar onSameLines (Cursor.Before t) (Cursor.After t) where
  atom m e := e.inWord || e == .call .commentText || e == .call .stringLiteral ||
    m == .spaced && (e == Grammar.newline || e == .finish) ||
    Rule.all.any fun r => e == .call r && r.isWord
  calls
    | .spaced, r => Grammar.kind r != .atomic && r != .schema && r != .stringLiteral
    | .compact, r => Grammar.kind r == .spaced || r == .listMarker || r == .optionalMarker
    | .atomic, _ => false
  stay m c c' h := h.aligned.after h.ne_atomic
  skip := Cursor.After.skip
  atoms m e he l c c' hc := by
    simp only [Bool.or_eq_true, beq_iff_eq, List.any_eq_true, Bool.and_eq_true] at he
    have hafter : ∀ {c₁ c₁'}, Cursor.Aligned t c₁ c₁' → Cursor.After t m c₁ c₁' :=
      fun h => h.after hc.ne_atomic
    rcases he with (((he | rfl) | rfl) | ⟨rfl, rfl | rfl⟩) | ⟨r, -, rfl, hr⟩
    · exact (hc.aligned.beside_inWord he).mono fun _ _ _ _ _ h => hafter h.1
    · exact hc.aligned.beside_commentText.mono fun _ _ _ _ _ h => hafter h
    · exact hc.aligned.beside_string.mono fun _ _ _ _ _ h => hafter h
    · exact survey.toLayering.beside_silent derives_newline rfl rfl hc.newline?
    · exact .finish hc.rest_eq_nil (hafter hc.aligned)
    · exact (hc.aligned.beside_isWord hr).mono fun _ _ _ _ _ h => hafter h.1
  rules m r hr l c c' hc hbody := by
    have hkind : Grammar.kind r ≠ .atomic := by
      cases m <;> cases r <;> first | exact absurd hr (by decide) | decide
    refine beside_rule hkind hc.aligned.line ?_
    cases m with
    | spaced =>
      cases r <;> first
        | exact absurd hr (by decide)
        | exact hbody hc
        | exact (hbody hc.1).mono fun _ _ _ _ _ h => .inl h
    | compact =>
      cases r <;> first
        | exact absurd hr (by decide)
        | exact hbody hc
        | exact beside_bracketed rfl rfl hc hbody
    | atomic => exact hc.elim
  bodies m r hr := by
    cases m <;> cases r <;> first | exact absurd hr (by decide) | rfl

/-! ### Texts -/

/-- A text has the lines of another, with further spaces and tabs at their ends. -/
def ReindentedLines (text text' : String) : Prop :=
  List.Forall₂ SameUpToBlanks (text.toList.splitOn '\n') (text'.toList.splitOn '\n')

/-- **Indentation does not matter.** A text without carriage returns and escaped line feeds is read
as a schema if and only if the text with further blanks at the ends of its lines is. Then the
schemas are equal up to offsets. -/
theorem Schema.parse_reindented {text text' : String} (hreturn : '\r' ∉ text.toList)
    (hescape : ¬ ['\\', '\n'] <:+: text.toList) (hlines : ReindentedLines text text') :
    (∃ s s', Schema.parse text = .ok s ∧ Schema.parse text' = .ok s' ∧
      s.onLines 0 = s'.onLines 0) ∨
    ∃ e e', Schema.parse text = .error e ∧ Schema.parse text' = .error e' := by
  obtain ⟨b, k, hb, hk, hreindented⟩ := Reindented.of_lines hlines
  have hstart : Cursor.After text.toList .spaced (.ofText text.toList) (.ofText text'.toList) := by
    have haligned : Cursor.Aligned text.toList (.ofText text.toList) ⟨.origin, k⟩ :=
      ⟨hreindented, rfl, ⟨hreturn, hescape⟩, List.suffix_refl _⟩
    refine .inr ⟨⟨b, k, hb, hk, haligned⟩, fun x hx => ?_⟩
    exact absurd hx.length_le (by simp [Cursor.ofText])
  refine Schema.parse_beside (B := Cursor.After text.toList .spaced)
    (beside_rule (by decide) rfl ?_)
  -- Blanks before the first line are skipped behind the start of the text.
  refine survey.toLayering.beside_seq rfl (.start Iff.rfl hstart) fun c c' _ _ _ hc => ?_
  exact (Alignment.indented text.toList).beside survey.toLayering rfl rfl hc.skip

/-- A text without indentation. -/
def flatLines : String :=
  "/// users\nmodel User \x7b\nid Int @id // key\n@@unique([\nid,\n])\n\x7d"

/-- The same text with indentation, and with blanks behind its lines. -/
def indentedLines : String :=
  " /// users \nmodel User \x7b\t\n  id Int @id // key  \n  @@unique([\n    id,\n  ])\n\x7d\t"

theorem Schema.parse_reindented_flatLines :
    ReindentedLines flatLines indentedLines ∧
    ∃ s s', Schema.parse flatLines = .ok s ∧ Schema.parse indentedLines = .ok s' ∧
      s.onLines 0 = s'.onLines 0 := by
  have hflat : flatLines.toList.splitOn '\n' = ["/// users".toList, "model User \x7b".toList,
      "id Int @id // key".toList, "@@unique([".toList, "id,".toList, "])".toList,
      "\x7d".toList] := by decide +kernel
  have hindented : indentedLines.toList.splitOn '\n' = [" /// users ".toList,
      "model User \x7b\t".toList, "  id Int @id // key  ".toList, "  @@unique([".toList,
      "    id,".toList, "  ])".toList, "\x7d\t".toList] := by decide +kernel
  have hline : ∀ b b' line : String, b.toList.all grammar.blank = true →
      b'.toList.all grammar.blank = true →
      SameUpToBlanks line.toList (b.toList ++ (line.toList ++ b'.toList)) :=
    fun b b' line hb hb' => ⟨_, _, List.all_eq_true.mp hb, List.all_eq_true.mp hb', rfl⟩
  have hlines : ReindentedLines flatLines indentedLines := by
    rw [ReindentedLines, hflat, hindented]
    exact .cons (hline " " " " _ rfl rfl) (.cons (hline "" "\t" _ rfl rfl)
      (.cons (hline "  " "  " _ rfl rfl) (.cons (hline "  " "" _ rfl rfl)
      (.cons (hline "    " "" _ rfl rfl) (.cons (hline "  " "" _ rfl rfl)
      (.cons (hline "" "\t" _ rfl rfl) .nil))))))
  have hok : (Schema.parse flatLines).toBool = true := by decide +kernel
  refine ⟨hlines, ?_⟩
  rcases Schema.parse_reindented (by decide +kernel) (by decide +kernel) hlines with
    h | ⟨e, e', he, -⟩
  · exact h
  · rw [he] at hok
    cases hok

end Pseudonym

/-
# Other line endings

Lines may end with a line feed or with a carriage return and a line feed. A
text in which every line feed gets a carriage return before it is read as the
same schema, on the same lines, provided that it had none before and that no
line feed is escaped: behind a backslash a carriage return would be escaped in
its place.

The two texts are read side by side. Line ends, blanks and the ends of the
text correspond, and so do words, since no line ends inside one.
-/
import Pseudonym.Proofs.Peg.SideBySide
import Pseudonym.Proofs.Syntax.Bare
import Pseudonym.Proofs.Syntax.Characters

namespace Pseudonym

open Peg

/-- The characters with a carriage return before every line feed. -/
def crlf (w : List Char) : List Char := w.flatMap fun x => if x = '\n' then ['\r', '\n'] else [x]

section Characters

variable {x : Char} {w v k : List Char}

@[simp] theorem crlf_nil : crlf [] = [] := rfl

theorem crlf_append (w v : List Char) : crlf (w ++ v) = crlf w ++ crlf v := List.flatMap_append

@[simp] theorem crlf_newline (k : List Char) : crlf ('\n' :: k) = '\r' :: '\n' :: crlf k := rfl

theorem crlf_cons (hx : x ≠ '\n') (k : List Char) : crlf (x :: k) = x :: crlf k := by
  simp [crlf, hx]

theorem crlf_of_not_mem (hw : '\n' ∉ w) : crlf w = w := by
  induction w with
  | nil => rfl
  | cons x w ih =>
    obtain ⟨hx, hw⟩ := not_or.mp (mt List.mem_cons.mpr hw)
    rw [crlf_cons (Ne.symm hx), ih hw]

/-- A text that ends lines with line feeds alone and escapes none of them. -/
structure LineFed (w : List Char) : Prop where
  noReturn : '\r' ∉ w
  noEscape : ¬ ['\\', '\n'] <:+: w

theorem LineFed.append_right (h : LineFed (w ++ k)) : LineFed k :=
  ⟨fun hk => h.noReturn (List.mem_append_right w hk),
    fun hk => h.noEscape (hk.trans (List.suffix_append w k).isInfix)⟩

theorem LineFed.ne_return (h : LineFed (x :: k)) : x ≠ '\r' := by
  rintro rfl
  exact h.noReturn List.mem_cons_self

/-- A word without line ends starts one text if it starts the other. -/
theorem isPrefix_of_crlf (hline : '\n' ∉ w) (hreturn : '\r' ∉ w) (h : w <+: crlf v) : w <+: v := by
  induction w generalizing v with
  | nil => exact List.nil_prefix
  | cons x w ih =>
    obtain ⟨hx, hline⟩ := not_or.mp (mt List.mem_cons.mpr hline)
    obtain ⟨hx', hreturn⟩ := not_or.mp (mt List.mem_cons.mpr hreturn)
    cases v with
    | nil => exact absurd h (by simp)
    | cons y v =>
      by_cases hy : y = '\n'
      · subst hy
        rw [crlf_newline, List.cons_prefix_cons] at h
        exact absurd h.1.symm hx'
      · rw [crlf_cons hy, List.cons_prefix_cons] at h
        exact List.cons_prefix_cons.mpr ⟨h.1, ih hline hreturn h.2⟩

end Characters

/-! ### Cursors -/

namespace Cursor

/-- The second cursor stands at the same place of the text with carriage returns. -/
structure Returned (c c' : Cursor) : Prop where
  rest : c'.rest = crlf c.rest
  line : c'.place.line = c.place.line
  start : c.place.offset = 0 ↔ c'.place.offset = 0
  fed : LineFed c.rest

/-- Both cursors stand on this line. -/
def OnLine (line : Nat) (c c' : Cursor) : Prop := c.Returned c' ∧ c.place.line = line

variable {c c' : Cursor} {w k : List Char} {line : Nat}

/-- Behind a word without line ends both stand where they stood, on the same line. -/
theorem Returned.past (h : c.Returned c') (hrest : c.rest = w ++ k) (hw : '\n' ∉ w) :
    c'.rest = w ++ crlf k ∧
      OnLine c.place.line ⟨c.place.advance w, k⟩ ⟨c'.place.advance w, crlf k⟩ := by
  have hcount : w.count '\n' = 0 := List.count_eq_zero.mpr hw
  have hfed := h.fed
  rw [hrest] at hfed
  refine ⟨by rw [h.rest, hrest, crlf_append, crlf_of_not_mem hw], ⟨rfl, ?_, ?_, hfed.append_right⟩, ?_⟩
  · rw [Place.line_advance, Place.line_advance, h.line]
  · rw [Place.offset_advance_eq_zero, Place.offset_advance_eq_zero, h.start]
  · rw [Place.line_advance, hcount, Nat.add_zero]

theorem OnLine.skip (m : Mode) (c c' : Cursor) (h : OnLine line c c') :
    OnLine line (grammar.skip m c) (grammar.skip m c') := by
  refine grammar.skip_beside ?_ ?_ m c c' h
  · rintro p p' x k k' hx ⟨hreturned, rfl⟩
    have hline : x ≠ '\n' := by
      rintro rfl
      cases hx
    obtain ⟨hrest, hpast⟩ := hreturned.past (w := [x]) rfl (by simpa using hline.symm)
    exact ⟨_, hrest, hpast⟩
  · rintro ⟨p, k⟩ c' ⟨h, -⟩ hflush
    rw [h.rest]
    cases k with
    | nil => exact nofun
    | cons x k =>
      by_cases hx : x = '\n'
      · subst hx
        rw [crlf_newline]
        rintro y ⟨⟩
        rfl
      · rw [crlf_cons hx]
        exact hflush

theorem Returned.newline? (h : c.Returned c') : Option.Rel Returned c.newline? c'.newline? := by
  obtain ⟨p, k⟩ := c
  obtain ⟨p', k'⟩ := c'
  obtain rfl : k' = crlf k := h.rest
  cases k with
  | nil => exact .none
  | cons x k =>
    by_cases hx : x = '\n'
    · subst hx
      refine .some ⟨rfl, ?_, ?_, LineFed.append_right (w := ['\n']) h.fed⟩
      · rw [Place.line_advance, Place.line_advance, h.line]
        rfl
      · rw [Place.offset_advance_eq_zero, Place.offset_advance_eq_zero]
        simp
    · have hreturn := h.fed.ne_return
      rw [crlf_cons hx, newline?_of_ne hx (.inl hreturn), newline?_of_ne hx (.inl hreturn)]
      exact .none

theorem OnLine.commentChar? (h : OnLine line c c') :
    Option.Rel (OnLine line) c.commentChar? c'.commentChar? := by
  obtain ⟨h, rfl⟩ := h
  obtain ⟨p, k⟩ := c
  obtain ⟨p', k'⟩ := c'
  obtain rfl : k' = crlf k := h.rest
  cases k with
  | nil => exact .none
  | cons x k =>
    by_cases hx : x = '\n'
    · subst hx
      exact .none
    · have hreturn := h.fed.ne_return
      obtain ⟨-, hpast⟩ := h.past (w := [x]) rfl (by simpa using Ne.symm hx)
      rw [crlf_cons hx, commentChar?_of_newline? (newline?_of_ne hx (.inl hreturn)),
        commentChar?_of_newline? (newline?_of_ne hx (.inl hreturn))]
      exact .some hpast

theorem OnLine.contentUnit? (h : OnLine line c c') :
    Option.Rel (OnLine line) c.contentUnit? c'.contentUnit? := by
  have hchar := h.commentChar?
  obtain ⟨h, rfl⟩ := h
  obtain ⟨p, k⟩ := c
  obtain ⟨p', k'⟩ := c'
  obtain rfl : k' = crlf k := h.rest
  cases k with
  | nil => exact .none
  | cons x k =>
    by_cases hline : x = '\n'
    · subst hline
      exact .none
    · rw [crlf_cons hline] at hchar ⊢
      by_cases hquote : x = '"'
      · subst hquote
        exact .none
      by_cases hback : x = '\\'
      · subst hback
        cases k with
        | nil => exact .none
        | cons y k =>
          -- An escaped line feed would become an escaped carriage return before a line end.
          have hy : y ≠ '\n' := by
            rintro rfl
            exact h.fed.noEscape ⟨[], k, rfl⟩
          obtain ⟨-, hpast⟩ := h.past (w := ['\\', y]) rfl (by simpa using Ne.symm hy)
          rw [crlf_cons hy]
          exact .some hpast
      · rw [contentUnit?_of_ne hquote hback, contentUnit?_of_ne hquote hback]
        exact hchar

end Cursor

/-! ### Readings -/

/-- Whether an expression is a word without line ends, or a letter or digit. -/
def Peg.Expr.inLine : Expr Rule → Bool
  | .word w => !w.contains '\n' && !w.contains '\r'
  | .one cls => cls != .any
  | _ => false

/-- Trees are equal up to offsets. -/
def onSameLines : Matching Rule where
  attempts _ _ := True
  node n n' := n.bare (Span.onLine 0) = n'.bare (Span.onLine 0)

section Readings

variable {M : Matching Rule} {s : Setting} {c c' : Cursor} {e : Expr Rule}

theorem beside_inLine (he : e.inLine = true) (h : c.Returned c') :
    grammar.Beside M (Cursor.OnLine c.place.line) s c c' (.expr e) := by
  cases e with
  | word w =>
    obtain ⟨hline, hreturn⟩ : '\n' ∉ w ∧ '\r' ∉ w := by simpa [Expr.inLine] using he
    refine .word (fun hw => ?_) fun k hk => ⟨crlf k, h.past hk hline⟩
    rw [h.rest] at hw
    exact isPrefix_of_crlf hline hreturn hw
  | one cls =>
    have hcls : ∀ {x}, cls.holds x = true → x ≠ '\n' ∧ x ≠ '\r' := by
      intro x hx
      constructor <;> rintro rfl <;> cases cls <;> simp_all [Expr.inLine, CharClass.holds]
    refine .one (fun x k hk hx => ?_) fun x k hk hx => ?_
    · have hstarts := isPrefix_of_crlf (w := [x]) (v := c.rest) (by simpa using (hcls hx).1.symm)
        (by simpa using (hcls hx).2.symm) ⟨k, by rw [← h.rest, hk]; rfl⟩
      obtain ⟨k', hk'⟩ := hstarts
      exact ⟨x, k', hk'.symm, hx⟩
    · obtain ⟨hrest, hpast⟩ := h.past (w := [x]) hk (by simpa using (hcls hx).1.symm)
      exact ⟨x, crlf k, hrest, hx, hpast⟩
  | _ => cases he

end Readings

/-- Words, and the texts of comments and strings, stay on their line and are equal. -/
def Accord.inLine (line : Nat) : Accord grammar onSameLines (Cursor.OnLine line) where
  atom m e := e.inLine || m == .atomic && (e == commentChar || e == contentUnit)
  calls r := Grammar.kind r == .atomic
  skip := Cursor.OnLine.skip
  record _ _ _ _ _ _ _ _ _ _ _ _ := trivial
  node r m _ _ c c' w w' c₁ c₁' ns ns' hc hw hw' hc₁ hns := by
    have hcount : w.count '\n' = 0 := by
      have hline := hc₁.2
      rw [hw.place, Place.line_advance, hc.2] at hline
      omega
    have htext : w' = w := by
      have hrest := hc.1.rest
      rw [hw.rest, hw'.rest, hc₁.1.rest, crlf_append,
        crlf_of_not_mem (List.count_eq_zero.mp hcount)] at hrest
      exact List.append_cancel_right hrest
    rw [htext]
    refine Node.bare_congr ?_ rfl hns
    simp only [Span.onLine, Span.between, hc.1.line]
  atoms m e he l c c' hc := by
    rcases Bool.or_eq_true_iff.mp he with he | he
    · have hbeside := beside_inLine (M := onSameLines) (s := ⟨m, l⟩) he hc.1
      rwa [hc.2] at hbeside
    · simp only [Bool.and_eq_true, beq_iff_eq, Bool.or_eq_true] at he
      obtain ⟨rfl, rfl | rfl⟩ := he
      · exact survey.toLayering.beside_silent derives_commentChar rfl rfl hc.commentChar?
      · exact survey.toLayering.beside_silent derives_contentUnit rfl rfl hc.contentUnit?
  bodies r m hr := by
    cases r <;> first | exact absurd hr (by decide) | rfl

/-- The trees of a text and of the text with carriage returns are equal up to offsets. -/
def Accord.crlf : Accord grammar onSameLines Cursor.Returned where
  atom _ e := e.inLine || e == Grammar.newline || e == .start || e == .finish ||
    Rule.all.any fun r => e == .call r && Grammar.kind r == .atomic
  calls r := Grammar.kind r != .atomic
  skip m c c' h := (Cursor.OnLine.skip m c c' ⟨h, rfl⟩).1
  record _ _ _ _ _ _ _ _ _ _ _ _ := trivial
  node r m hr _ c c' w w' c₁ c₁' ns ns' hc _ _ _ hns := by
    refine Node.bare_congr ?_ (Rule.kept_of_kind (by simpa using hr) w w') hns
    simp only [Span.onLine, Span.between, hc.line]
  atoms m e he l c c' hc := by
    simp only [Bool.or_eq_true, beq_iff_eq, List.any_eq_true, Bool.and_eq_true] at he
    rcases he with (((he | rfl) | rfl) | rfl) | ⟨r, -, rfl, hr⟩
    · exact (beside_inLine he hc).mono fun _ _ _ _ _ h => h.1
    · exact survey.toLayering.beside_silent derives_newline rfl rfl hc.newline?
    · exact .start hc.start hc
    · refine .finish ?_ hc
      rw [hc.rest]
      cases c.rest with
      | nil => simp
      | cons x k => by_cases hx : x = '\n' <;> simp [Pseudonym.crlf, hx]
    · refine ((Accord.inLine c.place.line).beside survey.toLayering rfl ?_ ⟨hc, rfl⟩).mono
        fun _ _ _ _ _ h => h.1
      simp [Goal.over, Expr.over, Accord.inLine, hr]
  bodies r m hr := by
    cases r <;> first | exact absurd hr (by decide) | rfl

/-! ### Texts -/

/-- The text with a carriage return before every line feed. -/
def withReturns (text : String) : String := .ofList (crlf text.toList)

/-- Texts whose readings stand beside each other are read as schemas that are equal up to offsets,
or as none. -/
theorem Schema.parse_beside {text text' : String} {B : Cursor → Cursor → Prop}
    (h : grammar.Beside onSameLines B ⟨.spaced, .consuming⟩ (.ofText text.toList)
      (.ofText text'.toList) (.expr (.call .schema))) :
    (∃ s s', Schema.parse text = .ok s ∧ Schema.parse text' = .ok s' ∧
      s.onLines 0 = s'.onLines 0) ∨
    ∃ e e', Schema.parse text = .error e ∧ Schema.parse text' = .error e' := by
  have hbeside := h .none .none trivial
  rcases Schema.parse_cases text with ⟨a, hrun, hparse⟩ | ⟨c, n, a, s, hrun, hn, hs, hparse⟩
  · rcases Schema.parse_cases text' with ⟨a', hrun', hparse'⟩ | ⟨c', n', a', s', hrun', -⟩
    · exact .inr ⟨_, _, hparse, hparse'⟩
    · rw [hrun, hrun'] at hbeside
      cases hbeside
  · rcases Schema.parse_cases text' with
      ⟨a', hrun', hparse'⟩ | ⟨c', n', a', s', hrun', hn', hs', hparse'⟩
    · rw [hrun, hrun'] at hbeside
      cases hbeside
    · rw [hrun, hrun'] at hbeside
      cases hbeside with
      | read _ _ _ _ hnodes =>
        obtain ⟨hbare, -⟩ := List.forall₂_cons.mp hnodes
        have hok := Schema.mirrors_ofNode (f := Span.onLine 0) hn s hs
        rw [hbare, Schema.mirrors_ofNode hn' s' hs'] at hok
        exact .inl ⟨s, s', hparse, hparse', (Except.ok.inj hok).symm⟩

/-- A text is read as a schema with either line ends, and as the same one up to offsets, or with
none of them. -/
theorem Schema.parse_withReturns {text : String} (h : LineFed text.toList) :
    (∃ s s', Schema.parse text = .ok s ∧ Schema.parse (withReturns text) = .ok s' ∧
      s.onLines 0 = s'.onLines 0) ∨
    ∃ e e', Schema.parse text = .error e ∧ Schema.parse (withReturns text) = .error e' := by
  have hcursor : (Cursor.ofText text.toList).Returned (.ofText (withReturns text).toList) :=
    ⟨String.toList_ofList, rfl, Iff.rfl, h⟩
  exact Schema.parse_beside (Accord.crlf.beside survey.toLayering rfl rfl hcursor)

end Pseudonym

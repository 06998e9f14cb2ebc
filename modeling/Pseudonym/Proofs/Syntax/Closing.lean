/-
# The brace that closes a block

Inside a block nothing looks further than the brace that closes it. A brace in
a string or in a comment closes nothing, so the characters are followed
together with what they are part of, `Lex`. From a place in the code of a text
the question whether a closing brace is still to come has the same answer all
along a reading (`closes_of_derives`). Where one is to come, a longer text is
read as the shorter one is: no word and no string reaches its end
(`Accord.within`, `beside_block`).
-/
import Pseudonym.Proofs.Peg.SideBySide
import Pseudonym.Proofs.Syntax.Bare
import Pseudonym.Proofs.Syntax.Characters

namespace Pseudonym

open Peg

/-- What the next character of a text is part of: the code, a string or an escape in it, or a
comment; or a closing brace has been met in the code, or a line end in a string. -/
inductive Lex where
  | code
  | string
  | escape
  | comment
  | closed
  | broken
  deriving DecidableEq, Repr

namespace Lex

/-- What follows a character. A slash in the code can only start a comment. -/
def step : Lex → Char → Lex
  | .code, x =>
    if x = '\x7d' then .closed else if x = '"' then .string
    else if x = '/' then .comment else .code
  | .string, x =>
    if x = '"' then .code else if x = '\\' then .escape
    else if x = '\n' then .broken else .string
  | .escape, _ => .string
  | .comment, x => if x = '\n' then .code else .comment
  | .closed, _ => .closed
  | .broken, _ => .broken

/-- What follows some characters. -/
def after (l : Lex) (w : List Char) : Lex := w.foldl step l

/-- Whether a closing brace is to come in the code. -/
def closes (l : Lex) (w : List Char) : Bool := l.after w == .closed

variable {l : Lex} {w k : List Char}

theorem after_append : l.after (w ++ k) = (l.after w).after k := List.foldl_append

theorem closes_append : l.closes (w ++ k) = (l.after w).closes k := by
  rw [closes, closes, after_append]

theorem closes_nil (hl : l ≠ .closed) : l.closes [] = false := by
  simpa [closes, after] using hl

theorem after_closed (w : List Char) : after .closed w = .closed := by
  induction w with
  | nil => rfl
  | cons x w ih => exact ih

theorem step_code {x : Char} (hx : x.isAlphanum = true ∨ grammar.blank x = true) :
    step .code x = .code := by
  have hbrace : x ≠ '\x7d' := by rintro rfl; revert hx; decide
  have hquote : x ≠ '"' := by rintro rfl; revert hx; decide
  have hslash : x ≠ '/' := by rintro rfl; revert hx; decide
  simp only [step, hbrace, hquote, hslash, if_false]

/-- A line end comes after a comment as it does after code. -/
theorem closes_of_newline? {p : Place} {c : Cursor} (h : Cursor.newline? ⟨p, w⟩ = some c) :
    closes .comment w = closes .code w := by
  unfold Cursor.newline? at h
  split at h
  next heq =>
    cases heq
    rfl
  next heq =>
    cases heq
    rfl
  next => cases h

end Lex

/-! ### A text with more behind it -/

namespace Cursor

/-- The second cursor stands at the same place of a text that goes on with `more` where the other
one stops. -/
structure Extended (stop : Place) (more : List Char) (c c' : Cursor) : Prop where
  place : c'.place = c.place
  rest : c'.rest = c.rest ++ more
  stop : c.place.advance c.rest = stop

/-- Moreover, the question whether a closing brace is to come has this answer. -/
def Within (stop : Place) (more : List Char) (closed : Bool) (l : Lex) (c c' : Cursor) : Prop :=
  c.Extended stop more c' ∧ l.closes c.rest = closed

variable {stop : Place} {more w k : List Char} {closed : Bool} {l : Lex} {c c' : Cursor} {x : Char}

theorem Extended.past (h : c.Extended stop more c') (hk : c.rest = w ++ k) :
    c'.rest = w ++ (k ++ more) ∧
      Extended stop more ⟨c.place.advance w, k⟩ ⟨c'.place.advance w, k ++ more⟩ := by
  refine ⟨by rw [h.rest, hk, List.append_assoc], by rw [h.place], rfl, ?_⟩
  rw [← h.stop, hk, Place.advance_append]

theorem Extended.offset_le (h : c.Extended stop more c') : c'.place.offset ≤ stop.offset := by
  have hstop := congrArg Place.offset h.stop
  rw [Place.offset_advance] at hstop
  rw [h.place]
  omega

theorem Within.past (h : Within stop more closed l c c') (hk : c.rest = w ++ k) :
    c'.rest = w ++ (k ++ more) ∧ Within stop more closed (l.after w) ⟨c.place.advance w, k⟩
      ⟨c'.place.advance w, k ++ more⟩ := by
  obtain ⟨hrest, hpast⟩ := h.1.past hk
  exact ⟨hrest, hpast, by rw [← Lex.closes_append, ← hk, h.2]⟩

end Cursor

/-- Trees are equal up to offsets, and nothing was attempted far behind the shorter text. -/
def upTo (stop : Place) : Matching Rule where
  attempts _ a' := a'.place.offset ≤ stop.offset + 1
  node n n' := n.bare (Span.onLine 0) = n'.bare (Span.onLine 0)

namespace Peg.Attempts

variable {R : Type} (a e : Attempts R) (r : R) (p : Place) (negative : Bool)

theorem place_add : (a.add r p negative).place = a.place := by
  unfold add
  split_ifs <;> rfl

theorem place_restartAt : (a.restartAt e p).place = a.place ∨ (a.restartAt e p).place = p := by
  unfold restartAt
  split_ifs
  · exact .inl rfl
  · exact .inl rfl
  · exact .inr rfl
  · exact .inl rfl

/-- A rule that goes wrong moves the furthest attempt to its own place, or not at all. -/
theorem place_record : (a.record e r p negative).place = a.place ∨
    (a.record e r p negative).place = p := by
  unfold record
  split_ifs
  · exact .inl rfl
  · rw [place_add]
    exact place_restartAt a e p

/-- At the start of a text nothing is further on than what was attempted. -/
theorem place_record_origin : (a.record e r .origin negative).place = a.place := by
  unfold record
  split_ifs
  · rfl
  · rw [place_add]
    unfold restartAt
    split_ifs with _ _ hlt
    · rfl
    · rfl
    · exact absurd hlt (Nat.not_lt_zero _)
    · rfl

theorem record_le {n : Nat} (ha : a.place.offset ≤ n) (hp : p.offset ≤ n) :
    (a.record e r p negative).place.offset ≤ n := by
  rcases place_record a e r p negative with h | h <;> rw [h] <;> assumption

end Peg.Attempts

/-! ### Steps within a block -/

section Within

open Cursor

variable {stop : Place} {more w k : List Char} {closed : Bool} {l : Lex} {c c' : Cursor} {x : Char}
  {M : Matching Rule} {s : Setting} (hmore : closed = true ∨ more = [])

include hmore

/-- What comes before the closing brace is part of the shorter text. -/
theorem Cursor.Within.isPrefix (h : Within stop more closed l c c') (hw : l.after w ≠ .closed)
    (hstarts : w <+: c'.rest) : w <+: c.rest := by
  rw [h.1.rest] at hstarts
  rcases hmore with rfl | rfl
  · rcases List.prefix_or_prefix_of_prefix hstarts (List.prefix_append c.rest more) with hw' | ⟨v, rfl⟩
    · exact hw'
    · -- All of the shorter text would be before the brace that it holds.
      have hclosed : l.after c.rest = .closed := by simpa [Lex.closes] using h.2
      refine absurd ?_ hw
      rw [Lex.after_append, hclosed, Lex.after_closed]
  · rwa [List.append_nil] at hstarts

theorem Cursor.Within.word (h : Within stop more closed l c c') (hw : l.after w ≠ .closed) :
    grammar.Beside M (Within stop more closed (l.after w)) s c c' (.expr (.word w)) :=
  .word (h.isPrefix hmore hw) fun _ hk => ⟨_, h.past hk⟩

theorem Cursor.Within.one {cls : CharClass} (h : Within stop more closed .code c c')
    (hcls : cls ≠ .any) :
    grammar.Beside M (Within stop more closed .code) s c c' (.expr (.one cls)) := by
  have hstep : ∀ {x}, cls.holds x = true → Lex.step .code x = .code := by
    intro x hx
    refine Lex.step_code (.inl ?_)
    cases cls with
    | any => exact absurd rfl hcls
    | letter => simp_all [CharClass.holds, Char.isAlphanum]
    | digit => simp_all [CharClass.holds, Char.isAlphanum]
    | alphanumeric => exact hx
  have hne : ∀ {x}, cls.holds x = true → Lex.after .code [x] ≠ .closed := by
    intro x hx
    rw [Lex.after, List.foldl_cons, hstep hx]
    rintro ⟨⟩
  refine .one (fun x k hk hx => ?_) fun x k hk hx => ?_
  · obtain ⟨k', hk'⟩ := h.isPrefix hmore (hne hx) ⟨k, hk.symm⟩
    exact ⟨x, k', hk'.symm, hx⟩
  · obtain ⟨hrest, hpast⟩ := h.past (w := [x]) hk
    rw [Lex.after, List.foldl_cons, hstep hx] at hpast
    exact ⟨x, k ++ more, hrest, hx, hpast⟩

theorem Cursor.Within.skip (hl : l ≠ .closed) (hblank : ∀ x, grammar.blank x = true → l.step x = l)
    (m : Mode) (c c' : Cursor) (h : Within stop more closed l c c') :
    Within stop more closed l (grammar.skip m c) (grammar.skip m c') := by
  refine grammar.skip_beside ?_ ?_ m c c' h
  · intro p p' x k k' hx h
    obtain ⟨hrest, hpast⟩ := h.past (w := [x]) rfl
    rw [Lex.after, List.foldl_cons, hblank x hx] at hpast
    exact ⟨k ++ more, hrest, hpast⟩
  · rintro ⟨p, rest⟩ c' h hflush
    rw [h.1.rest]
    cases rest with
    | nil =>
      have hclosed : closed = false := h.2.symm.trans (Lex.closes_nil hl)
      obtain rfl := hmore.resolve_left (by simp [hclosed])
      exact hflush
    | cons x k => exact hflush

/-- A line does not end in the longer text where it does not in the shorter one. -/
theorem Cursor.Within.newline?_eq_none (h : Within stop more closed l c c')
    (hl : l.after ['\r', '\n'] ≠ .closed) (hk : c.rest = x :: k) (hnone : c.newline? = none) :
    c'.newline? = none := by
  obtain ⟨p, rest⟩ := c
  obtain ⟨p', rest'⟩ := c'
  obtain rfl : rest = x :: k := hk
  obtain rfl : rest' = x :: (k ++ more) := h.1.rest
  obtain ⟨hline, hreturn⟩ := Cursor.newline?_eq_none hnone
  refine Cursor.newline?_of_ne hline ?_
  by_contra hboth
  simp only [not_or, not_not] at hboth
  obtain ⟨rfl, hhead⟩ := hboth
  obtain ⟨v, hv⟩ := List.head?_eq_some_iff.mp hhead
  obtain ⟨v', hv'⟩ := h.isPrefix hmore hl ⟨v, by rw [hv]; rfl⟩
  obtain rfl : '\n' :: v' = k := List.tail_eq_of_cons_eq hv'
  simp at hreturn

theorem Cursor.Within.lineEnd (h : Within stop more closed .comment c c') :
    Within stop more closed .code c.lineEnd c'.lineEnd := by
  obtain ⟨p, rest⟩ := c
  obtain ⟨p', rest'⟩ := c'
  obtain rfl : p' = p := h.1.place
  obtain rfl : rest' = rest ++ more := h.1.rest
  induction rest generalizing p' with
  | nil =>
    have hclosed : closed = false := h.2.symm
    obtain rfl := hmore.resolve_left (by simp [hclosed])
    exact ⟨h.1, hclosed.symm⟩
  | cons x k ih =>
    cases hnewline : Cursor.newline? ⟨p', x :: k⟩ with
    | some c =>
      have hnewline' : Cursor.newline? ⟨p', x :: (k ++ more)⟩ = some ⟨c.place, c.rest ++ more⟩ :=
        Cursor.newline?_append hnewline more
      rw [Cursor.lineEnd_of_newline? hnewline, List.cons_append,
        Cursor.lineEnd_of_newline? hnewline']
      exact ⟨h.1, by rw [← Lex.closes_of_newline? hnewline, h.2]⟩
    | none =>
      have hnewline' : Cursor.newline? ⟨p', x :: (k ++ more)⟩ = none :=
        h.newline?_eq_none hmore nofun rfl hnewline
      have hx := (Cursor.newline?_eq_none hnewline).1
      obtain ⟨-, hpast⟩ := h.past (w := [x]) rfl
      rw [Lex.after, List.foldl_cons, Lex.step, if_neg hx] at hpast
      rw [Cursor.lineEnd_cons hnewline, List.cons_append, Cursor.lineEnd_cons hnewline']
      exact ih _ hpast

theorem Cursor.Within.contentUnit? (h : Within stop more closed .string c c') :
    Option.Rel (Within stop more closed .string) c.contentUnit? c'.contentUnit? := by
  obtain ⟨p, rest⟩ := c
  obtain ⟨p', rest'⟩ := c'
  obtain rfl : p' = p := h.1.place
  obtain rfl : rest' = rest ++ more := h.1.rest
  -- An end of the shorter text before the string ends is an end of the longer one.
  have hend : closed = false → more = [] := fun hclosed => hmore.resolve_left (by simp [hclosed])
  cases rest with
  | nil =>
    obtain rfl := hend h.2.symm
    exact .none
  | cons x k =>
    by_cases hquote : x = '"'
    · subst hquote
      exact .none
    by_cases hback : x = '\\'
    · subst hback
      cases k with
      | nil =>
        obtain rfl := hend h.2.symm
        exact .none
      | cons y k =>
        obtain ⟨-, hpast⟩ := h.past (w := ['\\', y]) rfl
        exact .some hpast
    · rw [List.cons_append, Cursor.contentUnit?_of_ne hquote hback,
        Cursor.contentUnit?_of_ne hquote hback, Cursor.commentChar?, Cursor.commentChar?]
      cases hnewline : Cursor.newline? ⟨p', x :: k⟩ with
      | some c =>
        have hnewline' : Cursor.newline? ⟨p', x :: (k ++ more)⟩ = some ⟨c.place, c.rest ++ more⟩ :=
          Cursor.newline?_append hnewline more
        rw [hnewline']
        exact .none
      | none =>
        have hnewline' : Cursor.newline? ⟨p', x :: (k ++ more)⟩ = none :=
          h.newline?_eq_none hmore (by decide) rfl hnewline
        have hx := (Cursor.newline?_eq_none hnewline).1
        obtain ⟨-, hpast⟩ := h.past (w := [x]) rfl
        rw [Lex.after, List.foldl_cons, Lex.step, if_neg hquote, if_neg hback, if_neg hx] at hpast
        rw [hnewline']
        exact .some hpast

end Within

/-! ### Readings within a block -/

section Readings

open Cursor

variable {stop : Place} {more w w' : List Char} {closed : Bool} {l : Lex} {c c' c₁ c₁' : Cursor}
  {m : Mode} {look : Look}

theorem record_upTo (h : c'.place.offset ≤ stop.offset) (r : Rule) (a a' e e' : Attempts Rule)
    (negative : Bool) (ha : (upTo stop).attempts a a') (_ : (upTo stop).attempts e e') :
    (upTo stop).attempts (a.record e r c.place negative) (a'.record e' r c'.place negative) :=
  Attempts.record_le a' e' r c'.place negative ha (Nat.le_succ_of_le h)

theorem node_upTo (h : c.Extended stop more c') (h₁ : c₁.Extended stop more c₁')
    (hw : Past w c c₁) (hw' : Past w' c' c₁') (r : Rule) {ns ns' : List Tree}
    (hns : List.Forall₂ (upTo stop).node ns ns') :
    (upTo stop).node ⟨r, .between c.place c₁.place, w, ns⟩
      ⟨r, .between c'.place c₁'.place, w', ns'⟩ := by
  have htext : w' = w := by
    have hrest := h.rest
    rw [hw.rest, hw'.rest, h₁.rest, ← List.append_assoc] at hrest
    exact List.append_cancel_right (List.append_cancel_right hrest)
  rw [htext]
  refine Node.bare_congr ?_ rfl hns
  simp only [Span.onLine, Span.between, h.place]

/-- The content of a string. -/
def Accord.inString (stop : Place) (more : List Char) (closed : Bool)
    (hmore : closed = true ∨ more = []) :
    Accord grammar (upTo stop) (Within stop more closed .string) where
  atom m e := m == .atomic && e == contentUnit
  calls r := r == .stringContent
  skip := Within.skip hmore nofun fun x hx => by
    rcases Bool.or_eq_true_iff.mp hx with hx | hx <;> cases beq_iff_eq.mp hx <;> rfl
  record r _ c c' hc := record_upTo hc.1.offset_le r
  node r m _ _ c c' w w' c₁ c₁' ns ns' hc hw hw' hc₁ hns := node_upTo hc.1 hc₁.1 hw hw' r hns
  atoms m e he l c c' hc := by
    simp only [Bool.and_eq_true, beq_iff_eq] at he
    obtain ⟨rfl, rfl⟩ := he
    exact survey.toLayering.beside_silent derives_contentUnit rfl rfl (hc.contentUnit? hmore)
  bodies r m hr := by
    cases r <;> first | exact absurd hr (by decide) | rfl

section Atoms

variable (hmore : closed = true ∨ more = []) (h : Within stop more closed .code c c')

include hmore h

theorem beside_stringLiteral :
    grammar.Beside (upTo stop) (Within stop more closed .code) ⟨m, look⟩ c c'
      (.expr (.call .stringLiteral)) := by
  have L := survey.toLayering
  refine L.beside_call ?_ (record_upTo h.1.offset_le _) fun _ _ _ _ _ _ _ hw hw' h₁ =>
    node_upTo h.1 h₁.1 hw hw' _
  refine L.beside_seq rfl (h.word hmore nofun) fun c₁ c₁' _ _ _ h₁ => ?_
  refine L.beside_seq rfl ((Accord.inString stop more closed hmore).beside L rfl rfl h₁)
    fun c₂ c₂' _ _ _ h₂ => ?_
  exact h₂.word (w := ['"']) hmore nofun

theorem beside_comment {r : Rule} (hr : r = .docComment ∨ r = .lineComment) :
    grammar.Beside (upTo stop) (Within stop more closed .code) ⟨m, look⟩ c c'
      (.expr (.call r)) := by
  have L := survey.toLayering
  have htext : ∀ {c c'}, Within stop more closed .comment c c' →
      grammar.Beside (upTo stop) (Within stop more closed .code) ⟨.compact, look⟩ c c'
        (.expr (.call .commentText)) := by
    intro c c' h
    refine L.beside_call ?_ (record_upTo h.1.offset_le _) fun _ _ _ _ _ _ _ hw hw' h₁ =>
      node_upTo h.1 h₁.1 hw hw' _
    exact L.beside_silent derives_lineEnd rfl rfl (.some (h.lineEnd hmore))
  rcases hr with rfl | rfl
  · refine L.beside_call ?_ (record_upTo h.1.offset_le _) fun _ _ _ _ _ _ _ hw hw' h₁ =>
      node_upTo h.1 h₁.1 hw hw' _
    exact L.beside_seq rfl (h.word (w := ['/', '/', '/']) hmore nofun) fun _ _ _ _ _ h₁ => htext h₁
  · refine L.beside_call ?_ (record_upTo h.1.offset_le _) fun _ _ _ _ _ _ _ hw hw' h₁ =>
      node_upTo h.1 h₁.1 hw hw' _
    exact L.beside_seq rfl (h.word (w := ['/', '/']) hmore nofun) fun _ _ _ _ _ h₁ => htext h₁

end Atoms

/-- The smallest parts of code: words without braces, quotes and slashes, letters and digits, and
strings and comments as a whole. -/
def Peg.Expr.isCodeAtom : Expr Rule → Bool
  | .word w => Lex.after .code w == .code
  | .one cls => cls != .any
  | .call r => [Rule.stringLiteral, .docComment, .lineComment].contains r
  | _ => false

/-- Whether a rule reads code: it is no block, and no string or comment. -/
def Rule.isCode : Rule → Bool
  | .schema | .endOfText | .configBlock | .modelDef | .enumDef | .stringLiteral | .stringContent
  | .docComment | .lineComment | .commentText => false
  | _ => true

/-- The code of a block, up to the brace that closes it. -/
def Accord.within (stop : Place) (more : List Char) (closed : Bool)
    (hmore : closed = true ∨ more = []) :
    Accord grammar (upTo stop) (Within stop more closed .code) where
  atom _ := Expr.isCodeAtom
  calls := Rule.isCode
  skip := Within.skip hmore nofun fun x hx => Lex.step_code (.inr hx)
  record r _ c c' hc := record_upTo hc.1.offset_le r
  node r m _ _ c c' w w' c₁ c₁' ns ns' hc hw hw' hc₁ hns := node_upTo hc.1 hc₁.1 hw hw' r hns
  atoms m e he l c c' hc := by
    cases e with
    | word w =>
      have hw : Lex.after .code w = .code := beq_iff_eq.mp he
      have hword := hc.word (M := upTo stop) (s := ⟨m, l⟩) (w := w) hmore (by rw [hw]; exact nofun)
      rwa [hw] at hword
    | one cls => exact hc.one hmore (by simpa [Expr.isCodeAtom] using he)
    | call r =>
      have hr : r = .stringLiteral ∨ r = .docComment ∨ r = .lineComment := by
        simpa [Expr.isCodeAtom] using he
      rcases hr with rfl | hr
      · exact beside_stringLiteral hmore hc
      · exact beside_comment hmore hc hr
    | _ => cases he
  bodies r m hr := by
    cases r <;> first | exact absurd hr (by decide) | rfl

end Readings

/-! ### Blocks -/

section Blocks

open Cursor

variable {m : Mode} {l : Look} {stop : Place} {more : List Char} {c c' c₁ : Cursor} {ns : List Tree}
  {e q : Expr Rule}

/-- Whether an expression reads code, and something in each round. -/
def Peg.Expr.isCode (e : Expr Rule) : Bool :=
  e.over Expr.isCodeAtom Rule.isCode && e.steady Rule.mayBeEmpty

/-- Code that is read does not change whether a closing brace is to come. -/
theorem closes_of_derives (he : e.isCode = true)
    (h : Parses m e c c₁ ns) :
    Lex.closes .code c₁.rest = Lex.closes .code c.rest := by
  obtain ⟨hover, hs⟩ := Bool.and_eq_true_iff.mp he
  have hwithin : Within (c.place.advance c.rest) [] (Lex.closes .code c.rest) .code c c :=
    ⟨⟨rfl, (List.append_nil _).symm, rfl⟩, rfl⟩
  have hbeside := (Accord.within _ [] _ (.inr rfl)).beside survey.toLayering (m := m)
    (t := .expr e) (l := .consuming) hs hover hwithin .none .none (Nat.zero_le _)
  have hresult := survey.toLayering.run_result (l := .consuming) (a := .none) h hs
  generalize grammar.run (.expr e) ⟨m, .consuming⟩ c .none = o at hbeside hresult
  cases hbeside with
  | fail => cases hresult
  | read _ hc =>
    cases hresult
    exact hc.2

theorem closes_skip (m : Mode) (c : Cursor) :
    Lex.closes .code (grammar.skip m c).rest = Lex.closes .code c.rest := by
  have hwithin : Within (c.place.advance c.rest) [] (Lex.closes .code c.rest) .code c c :=
    ⟨⟨rfl, (List.append_nil _).symm, rfl⟩, rfl⟩
  exact ((Accord.within _ [] _ (.inr rfl)).skip m c c hwithin).2

theorem closes_of_code_then (he : e.isCode = true)
    (hq : ∀ {c c₁ ns}, Parses m q c c₁ ns →
      Lex.closes .code c.rest = true)
    (h : Parses m (.seq e q) c c₁ ns) :
    Lex.closes .code c.rest = true := by
  obtain ⟨c₂, _, _, hfirst, hsecond, -⟩ := h.of_seq
  rw [← closes_of_derives he hfirst, ← closes_skip m c₂]
  exact hq hsecond

theorem closes_of_brace (h : Parses m (Grammar.lit "\x7d") c c₁ ns) :
    Lex.closes .code c.rest = true := by
  obtain ⟨hpast, -⟩ := h.of_word
  rw [hpast.rest, Lex.closes_append, Lex.closes]
  exact beq_iff_eq.mpr (Lex.after_closed _)

/-- Where a block is read, a closing brace is to come. -/
theorem closes_of_block {r : Rule} (hr : r = .configBlock ∨ r = .modelDef ∨ r = .enumDef)
    (h : Parses m (.call r) c c₁ ns) :
    Lex.closes .code c.rest = true := by
  obtain ⟨_, hbody, -⟩ := h.of_call
  rcases hr with rfl | rfl | rfl
  all_goals
    exact closes_of_code_then rfl (closes_of_code_then rfl (closes_of_code_then rfl
      (closes_of_code_then rfl closes_of_brace))) hbody

/-- Before a closing brace, code is read in the longer text as it is in the shorter one. -/
theorem beside_code (he : e.isCode = true) (h : Within stop more true .code c c') :
    grammar.Beside (upTo stop) (Within stop more true .code) ⟨m, l⟩ c c' (.expr e) := by
  obtain ⟨hover, hs⟩ := Bool.and_eq_true_iff.mp he
  exact (Accord.within stop more true (.inl rfl)).beside survey.toLayering hs hover h

theorem beside_code_then {B : Cursor → Cursor → Prop} (he : e.isCode = true)
    (hs : (Expr.seq e q).steady Rule.mayBeEmpty = true)
    (hq : ∀ {c c'}, Within stop more true .code c c' →
      grammar.Beside (upTo stop) B ⟨m, l⟩ c c' (.expr q))
    (h : Within stop more true .code c c') :
    grammar.Beside (upTo stop) B ⟨m, l⟩ c c' (.expr (.seq e q)) :=
  survey.toLayering.beside_seq hs (beside_code he h) fun _ _ _ _ _ h₁ =>
    hq ((Accord.within stop more true (.inl rfl)).skip m _ _ h₁)

theorem beside_brace (h : Within stop more true .code c c') :
    grammar.Beside (upTo stop) (Extended stop more) ⟨m, l⟩ c c' (.expr (Grammar.lit "\x7d")) := by
  refine .word (fun hbrace => ?_) fun k hk => ⟨k ++ more, h.1.past hk⟩
  obtain ⟨p, rest⟩ := c
  rw [h.1.rest] at hbrace
  cases rest with
  | nil => exact absurd h.2 nofun
  | cons x k =>
    obtain ⟨hx, -⟩ := List.cons_prefix_cons.mp hbrace
    rw [← hx]
    exact ⟨k, rfl⟩

/-- Before a closing brace, a block is read in the longer text as it is in the shorter one. -/
theorem beside_block {r : Rule} (hr : r = .configBlock ∨ r = .modelDef ∨ r = .enumDef)
    (h : Within stop more true .code c c') :
    grammar.Beside (upTo stop) (Extended stop more) ⟨m, l⟩ c c' (.expr (.call r)) := by
  rcases hr with rfl | rfl | rfl
  all_goals
    refine survey.toLayering.beside_call ?_ (record_upTo h.1.offset_le _) fun _ _ _ _ _ _ _ hw hw' h₁ =>
      node_upTo h.1 h₁ hw hw' _
    exact beside_code_then rfl rfl (beside_code_then rfl rfl (beside_code_then rfl rfl
      (beside_code_then rfl rfl beside_brace))) h

end Blocks

end Pseudonym

/-
# Reading without a bound

The bound of a grammar's reader is enough for a text: more calls inside one
another and more rounds give the same outcome, attempts included
(`Layering.reader_stable`). So reading has a meaning of its own, `Grammar.run`,
which takes as much of both as the text needs. It is what reading a text gives
(`Layering.read_eq_run`), it gives what is derived (`Layering.run_derives`),
and it satisfies the equations of the combinators without any bound.
-/
import Pseudonym.Proofs.Peg.Reads

namespace Pseudonym
namespace Peg

variable {R : Type} {g : Grammar R}

/-! ### Readers that agree where they are asked -/

namespace Reader

variable {p p' q q' : Reader R} {s : Setting} {c : Cursor} {a : Attempts R}

theorem seq_congr (hp : p s c a = p' s c a)
    (hq : ∀ c₁ before a₁, (p s c a).result = some (c₁, before) → q s c₁ a₁ = q' s c₁ a₁) :
    seq p q s c a = seq p' q' s c a := by
  simp only [seq, ← hp]
  generalize p s c a = o at hq
  obtain ⟨_ | ⟨c₁, before⟩, a₁⟩ := o
  · rfl
  · simp only [hq c₁ before a₁ rfl]

theorem alt_congr (hp : p s c a = p' s c a) (hq : ∀ a₁, q s c a₁ = q' s c a₁) :
    alt p q s c a = alt p' q' s c a := by
  simp only [alt, hp, hq]

theorem opt_congr (hp : p s c a = p' s c a) : opt p s c a = opt p' s c a := by
  simp only [opt, hp]

theorem notAhead_congr
    (hp : p { s with look := s.look.negate } c a = p' { s with look := s.look.negate } c a) :
    notAhead p s c a = notAhead p' s c a := by
  simp only [notAhead, hp]

theorem rule_congr {kind : RuleKind} {r : R}
    (hp : p { s with mode := kind.innerMode s.mode } c a =
      p' { s with mode := kind.innerMode s.mode } c a) :
    rule kind r p s c a = rule kind r p' s c a := by
  simp only [rule, hp]

end Reader

/-! ### More than enough -/

namespace Layering

variable (L : Layering g) {m : Mode} {l : Look}

/-- Rounds that each read something do not depend on how many there may be. -/
theorem rounds_stable {e : Expr R} {p p' : Reader R} (he : e.mayBeEmpty L.empty = false) :
    ∀ (n n' : Nat) (c : Cursor) (a : Attempts R), c.rest.length < n → c.rest.length < n' →
    (∀ c' a, c'.rest.length ≤ c.rest.length → Derives g m (.expr e) c' (p ⟨m, l⟩ c' a).result ∧
      p ⟨m, l⟩ c' a = p' ⟨m, l⟩ c' a) →
    Reader.rounds (p.afterBlanks g.blank) n ⟨m, l⟩ c a =
      Reader.rounds (p'.afterBlanks g.blank) n' ⟨m, l⟩ c a
  | 0, _, _, _, hn, _, _ => absurd hn (Nat.not_lt_zero _)
  | _, 0, _, _, _, hn', _ => absurd hn' (Nat.not_lt_zero _)
  | n + 1, n' + 1, c, a, hn, hn', hp => by
    have hskip := g.length_skip_le m c
    obtain ⟨hround, heq⟩ := hp (g.skip m c) a hskip
    refine Reader.opt_congr (Reader.seq_congr heq fun c₁ before a₁ hres => ?_)
    have hres' : (p ⟨m, l⟩ (g.skip m c) a).result = some (c₁, before) := hres
    rw [hres'] at hround
    have hlt : c₁.rest.length < (g.skip m c).rest.length := L.length_lt hround he _ rfl
    exact rounds_stable he n n' c₁ a₁ (by omega) (by omega) fun c' a hc' => hp c' a (by omega)

/-- The reader of an expression does not depend on the bounds if those of the rules do not: at the
same place those that may be called first, and further on all of them. -/
theorem expr_stable (n n' : Nat) (rules rules' : R → Reader R) (m : Mode) : ∀ (e : Expr R)
    (l : Look) (c : Cursor) (a : Attempts R), e.steady L.empty = true →
    c.rest.length ≤ n → c.rest.length ≤ n' →
    (∀ r l c' a, c'.rest.length ≤ c.rest.length →
      r ∈ e.heads L.empty ∨ c'.rest.length < c.rest.length →
      Derives g m (.expr (.call r)) c' (rules r ⟨m, l⟩ c' a).result ∧
        rules r ⟨m, l⟩ c' a = rules' r ⟨m, l⟩ c' a) →
    e.reader g.blank n rules ⟨m, l⟩ c a = e.reader g.blank n' rules' ⟨m, l⟩ c a
  | .word _, _, _, _, _, _, _, _ => rfl
  | .one _, _, _, _, _, _, _, _ => rfl
  | .start, _, _, _, _, _, _, _ => rfl
  | .finish, _, _, _, _, _, _, _ => rfl
  | .call r, l, c, a, _, _, _, hcalls =>
    (hcalls r l c a (Nat.le_refl _) (.inl (List.mem_singleton.mpr rfl))).2
  | .seq p q, l, c, a, hs, hn, hn', hcalls => by
    obtain ⟨hsp, hsq⟩ := Bool.and_eq_true_iff.mp hs
    have hcallsp := fun r l (c' : Cursor) a (hle : c'.rest.length ≤ c.rest.length)
        (hr : r ∈ p.heads L.empty ∨ c'.rest.length < c.rest.length) =>
      hcalls r l c' a hle (hr.imp_left (List.mem_append_left _))
    refine Reader.seq_congr (expr_stable n n' rules rules' m p l c a hsp hn hn' hcallsp)
      fun c₁ before a₁ hres => ?_
    have hp := L.expr_derives n rules m p l c a hsp hn fun r l c' a hle hr =>
      (hcallsp r l c' a hle hr).1
    rw [hres] at hp
    have hle := hp.length_le
    have hskip := g.length_skip_le m c₁
    refine expr_stable n n' rules rules' m q l (g.skip m c₁) a₁ hsq (by omega) (by omega)
      fun r l c' a hle' hr => hcalls r l c' a (by omega) ?_
    cases hempty : p.mayBeEmpty L.empty with
    | true =>
      refine hr.imp (fun hr => ?_) (fun hlt => by omega)
      rw [Expr.heads, hempty]
      exact List.mem_append_right _ hr
    | false =>
      have hlt : c₁.rest.length < c.rest.length := L.length_lt hp hempty _ rfl
      exact .inr (by omega)
  | .alt p q, l, c, a, hs, hn, hn', hcalls => by
    obtain ⟨hsp, hsq⟩ := Bool.and_eq_true_iff.mp hs
    refine Reader.alt_congr ?_ fun a₁ => ?_
    · exact expr_stable n n' rules rules' m p l c a hsp hn hn' fun r l c' a hle hr =>
        hcalls r l c' a hle (hr.imp_left (List.mem_append_left _))
    · exact expr_stable n n' rules rules' m q l c a₁ hsq hn hn' fun r l c' a hle hr =>
        hcalls r l c' a hle (hr.imp_left (List.mem_append_right _))
  | .opt p, l, c, a, hs, hn, hn', hcalls =>
    Reader.opt_congr (expr_stable n n' rules rules' m p l c a hs hn hn' hcalls)
  | .many p, l, c, a, hs, hn, hn', hcalls => by
    obtain ⟨hempty, hsp⟩ := Bool.and_eq_true_iff.mp hs
    have hempty : p.mayBeEmpty L.empty = false := by simpa using hempty
    refine Reader.opt_congr (Reader.seq_congr
      (expr_stable n n' rules rules' m p l c a hsp hn hn' hcalls) fun c₁ before a₁ hres => ?_)
    have hp := L.expr_derives n rules m p l c a hsp hn fun r l c' a hle hr =>
      (hcalls r l c' a hle hr).1
    rw [hres] at hp
    have hlt : c₁.rest.length < c.rest.length := L.length_lt hp hempty _ rfl
    -- Behind the first round every rule may be called.
    have hlater := fun r l (c' : Cursor) a (hle : c'.rest.length ≤ c₁.rest.length) =>
      hcalls r l c' a (by omega) (.inr (by omega))
    refine L.rounds_stable hempty n n' c₁ a₁ (by omega) (by omega) fun c' a hc' => ⟨?_, ?_⟩
    · exact L.expr_derives n rules m p l c' a hsp (by omega) fun r l c'' a hle _ =>
        (hlater r l c'' a (by omega)).1
    · exact expr_stable n n' rules rules' m p l c' a hsp (by omega) (by omega)
        fun r l c'' a hle _ => hlater r l c'' a (by omega)
  | .notAhead p, l, c, a, hs, hn, hn', hcalls =>
    Reader.notAhead_congr (expr_stable n n' rules rules' m p l.negate c a hs hn hn' hcalls)

/-- A rule's reader does not depend on its bound where this covers the text left and the rank. -/
theorem reader_stable : ∀ (n n' : Nat) (r : R) (m : Mode) (l : Look) (c : Cursor) (a : Attempts R),
    g.rules.length * c.rest.length + L.rank r < n →
    g.rules.length * c.rest.length + L.rank r < n' →
    g.reader n r ⟨m, l⟩ c a = g.reader n' r ⟨m, l⟩ c a
  | 0, _, _, _, _, _, _, hn, _ => absurd hn (Nat.not_lt_zero _)
  | _, 0, _, _, _, _, _, _, hn' => absurd hn' (Nat.not_lt_zero _)
  | n + 1, n' + 1, r, m, l, c, a, hn, hn' => by
    have hrank := L.rank_lt r
    have hlen : c.rest.length ≤ g.rules.length * c.rest.length :=
      Nat.le_mul_of_pos_left _ (by omega)
    refine Reader.rule_congr (L.expr_stable n n' (g.reader n) (g.reader n') _ (g.body r) l c a
      (L.steady r) (by omega) (by omega) fun r' l c' a hle hr => ?_)
    have hlow : g.rules.length * c'.rest.length + L.rank r' <
        g.rules.length * c.rest.length + L.rank r := by
      rcases hr with hr | hlt
      · have hmul : g.rules.length * c'.rest.length ≤ g.rules.length * c.rest.length :=
          Nat.mul_le_mul_left _ hle
        have hlow := L.rank_heads r r' hr
        omega
      · have hlow := L.rank_lt r'
        have hmul : g.rules.length * (c'.rest.length + 1) ≤ g.rules.length * c.rest.length :=
          Nat.mul_le_mul_left _ hlt
        rw [Nat.mul_add, Nat.mul_one] at hmul
        omega
    exact ⟨L.reader_derives n r' _ l c' a (by omega),
      reader_stable n n' r' _ l c' a (by omega) (by omega)⟩

end Layering

/-! ### As much as is needed -/

/-- Whether every round of what is to be read reads something. -/
def Goal.steady (empty : R → Bool) : Goal R → Bool
  | .expr e => e.steady empty
  | .more e => !e.mayBeEmpty empty && e.steady empty

namespace Grammar

section Equations

variable {s : Setting} {c : Cursor} {a : Attempts R} {p q : Expr R}

theorem run_alt : g.run (.expr (.alt p q)) s c a =
    Reader.alt (g.run (.expr p)) (g.run (.expr q)) s c a := rfl

theorem run_opt : g.run (.expr (.opt p)) s c a = Reader.opt (g.run (.expr p)) s c a := rfl

theorem run_notAhead : g.run (.expr (.notAhead p)) s c a =
    Reader.notAhead (g.run (.expr p)) s c a := rfl

end Equations

theorem enough_le (g : Grammar R) {c c' : Cursor} (h : c'.rest.length ≤ c.rest.length) :
    g.enough c' ≤ g.enough c := by
  have hmul : g.rules.length * (c'.rest.length + 1) ≤ g.rules.length * (c.rest.length + 1) :=
    Nat.mul_le_mul_left _ (by omega)
  simp only [enough]
  omega

end Grammar

namespace Layering

variable (L : Layering g) {m : Mode} {l : Look} {c : Cursor} {a : Attempts R}

include L

theorem calls_stable {n n' : Nat} (hn : g.enough c ≤ n + 1) (hn' : g.enough c ≤ n' + 1) (r : R)
    (l : Look) (c' : Cursor) (a : Attempts R) (hle : c'.rest.length ≤ c.rest.length) :
    Derives g m (.expr (.call r)) c' (g.reader n r ⟨m, l⟩ c' a).result ∧
      g.reader n r ⟨m, l⟩ c' a = g.reader n' r ⟨m, l⟩ c' a := by
  have hrank := L.rank_lt r
  have hmul : g.rules.length * c'.rest.length ≤ g.rules.length * c.rest.length :=
    Nat.mul_le_mul_left _ hle
  simp only [Grammar.enough, Nat.mul_add, Nat.mul_one] at hn hn'
  exact ⟨L.reader_derives n r m l c' a (by omega),
    L.reader_stable n n' r m l c' a (by omega) (by omega)⟩

theorem expr_eq_run {e : Expr R} (he : e.steady L.empty = true) {n : Nat}
    (hn : g.enough c ≤ n + 1) :
    e.reader g.blank n (g.reader n) ⟨m, l⟩ c a = g.run (.expr e) ⟨m, l⟩ c a := by
  have hlen : c.rest.length + 1 ≤ g.enough c := by
    simp only [Grammar.enough]
    omega
  exact L.expr_stable n (g.enough c) (g.reader n) (g.reader (g.enough c)) m e l c a he (by omega)
    (by omega) fun r l c' a hle _ => L.calls_stable hn (Nat.le_succ _) r l c' a hle

/-- What is read is derived. -/
theorem run_derives {t : Goal R} (ht : t.steady L.empty = true) :
    Derives g m t c (g.run t ⟨m, l⟩ c a).result := by
  have hlen : c.rest.length + 1 ≤ g.enough c := by
    simp only [Grammar.enough]
    omega
  have hcalls := fun r l (c' : Cursor) a (hle : c'.rest.length ≤ c.rest.length) =>
    (L.calls_stable (m := m) (Nat.le_succ (g.enough c)) (Nat.le_succ _) r l c' a hle).1
  cases t with
  | expr e =>
    exact L.expr_derives _ _ m e l c a ht (by omega) fun r l c' a hle _ => hcalls r l c' a hle
  | more e =>
    obtain ⟨hempty, hs⟩ := Bool.and_eq_true_iff.mp ht
    refine L.rounds_derives (by simpa using hempty) _ c a (by omega) fun c' a hc' => ?_
    exact L.expr_derives _ _ m e l c' a hs (by omega) fun r l c'' a hle _ =>
      hcalls r l c'' a (by omega)

theorem run_result {t : Goal R} {x : Option (Cursor × List (Node R))}
    (h : Derives g m t c x) (ht : t.steady L.empty = true) :
    (g.run t ⟨m, l⟩ c a).result = x := (L.run_derives ht).unique h

theorem more_eq_run {e : Expr R} (ht : (Goal.more e).steady L.empty = true) {n : Nat}
    (hn : g.enough c ≤ n) :
    (Goal.more e).reader g n ⟨m, l⟩ c a = g.run (.more e) ⟨m, l⟩ c a := by
  obtain ⟨hempty, hs⟩ := Bool.and_eq_true_iff.mp ht
  have hlen : c.rest.length < g.enough c := by
    simp only [Grammar.enough]
    omega
  refine L.rounds_stable (by simpa using hempty) _ _ c a (by omega) hlen fun c' a hc' => ?_
  have henough := g.enough_le hc'
  have heq : e.reader g.blank n (g.reader n) ⟨m, l⟩ c' a =
      e.reader g.blank (g.enough c) (g.reader (g.enough c)) ⟨m, l⟩ c' a :=
    (L.expr_eq_run hs (by omega)).trans (L.expr_eq_run hs (by omega)).symm
  refine ⟨?_, heq⟩
  rw [L.expr_eq_run hs (by omega)]
  exact L.run_derives hs

/-! ### Equations -/

theorem run_call (r : R) : g.run (.expr (.call r)) ⟨m, l⟩ c a =
    Reader.rule (g.kind r) r (g.run (.expr (g.body r))) ⟨m, l⟩ c a :=
  Reader.rule_congr (L.expr_eq_run (L.steady r) (Nat.le_refl _))

theorem run_seq {p q : Expr R} (hs : (Expr.seq p q).steady L.empty = true) :
    g.run (.expr (.seq p q)) ⟨m, l⟩ c a =
      Reader.seq (g.run (.expr p)) ((g.run (.expr q)).afterBlanks g.blank) ⟨m, l⟩ c a := by
  obtain ⟨hsp, hsq⟩ := Bool.and_eq_true_iff.mp hs
  refine Reader.seq_congr rfl fun c₁ before a₁ hres => ?_
  have hp : Derives g m (.expr p) c (g.run (.expr p) ⟨m, l⟩ c a).result := L.run_derives hsp
  have hres' : (g.run (.expr p) ⟨m, l⟩ c a).result = some (c₁, before) := hres
  rw [hres'] at hp
  have hle := hp.length_le
  have hskip := g.length_skip_le m c₁
  have henough := g.enough_le (Nat.le_trans hskip hle)
  have heq : q.reader g.blank (g.enough c) (g.reader (g.enough c)) ⟨m, l⟩ (g.skip m c₁) a₁ =
      g.run (.expr q) ⟨m, l⟩ (g.skip m c₁) a₁ := L.expr_eq_run hsq (by omega)
  exact heq

theorem run_many {p : Expr R} (hs : (Expr.many p).steady L.empty = true) :
    g.run (.expr (.many p)) ⟨m, l⟩ c a =
      Reader.opt (Reader.seq (g.run (.expr p)) (g.run (.more p))) ⟨m, l⟩ c a := by
  obtain ⟨-, hsp⟩ := Bool.and_eq_true_iff.mp hs
  refine Reader.opt_congr (Reader.seq_congr rfl fun c₁ before a₁ hres => ?_)
  have hp : Derives g m (.expr p) c (g.run (.expr p) ⟨m, l⟩ c a).result := L.run_derives hsp
  have hres' : (g.run (.expr p) ⟨m, l⟩ c a).result = some (c₁, before) := hres
  rw [hres'] at hp
  have henough := g.enough_le hp.length_le
  exact L.more_eq_run hs henough

theorem run_more {p : Expr R} (hs : (Expr.many p).steady L.empty = true) :
    g.run (.more p) ⟨m, l⟩ c a = Reader.opt
      (Reader.seq ((g.run (.expr p)).afterBlanks g.blank) (g.run (.more p))) ⟨m, l⟩ c a := by
  obtain ⟨hempty, hsp⟩ := Bool.and_eq_true_iff.mp hs
  have hempty : p.mayBeEmpty L.empty = false := by simpa using hempty
  have hskip := g.length_skip_le m c
  have henough := g.enough_le hskip
  -- With one more round allowed than is needed, one can be taken off.
  have hmore : g.run (.more p) ⟨m, l⟩ c a =
      (Goal.more p).reader g (g.enough c + 1) ⟨m, l⟩ c a := (L.more_eq_run hs (Nat.le_succ _)).symm
  have hround : p.reader g.blank (g.enough c + 1) (g.reader (g.enough c + 1)) ⟨m, l⟩
      (g.skip m c) a = g.run (.expr p) ⟨m, l⟩ (g.skip m c) a := L.expr_eq_run hsp (by omega)
  rw [hmore]
  refine Reader.opt_congr (Reader.seq_congr hround fun c₁ before a₁ hres => ?_)
  have hp : Derives g m (.expr p) (g.skip m c) (g.run (.expr p) ⟨m, l⟩ (g.skip m c) a).result :=
    L.run_derives hsp
  have hres' : (g.run (.expr p) ⟨m, l⟩ (g.skip m c) a).result = some (c₁, before) :=
    (congrArg Outcome.result hround).symm.trans hres
  rw [hres'] at hp
  have hlt : c₁.rest.length < (g.skip m c).rest.length := L.length_lt hp hempty _ rfl
  have henough₁ := g.enough_le (Nat.le_of_lt (Nat.lt_of_lt_of_le hlt hskip))
  have hlen : c.rest.length < g.enough c := by
    simp only [Grammar.enough]
    omega
  refine L.rounds_stable hempty _ _ c₁ a₁ (by omega) ?_ fun c' a hc' => ?_
  · simp only [Grammar.enough]
    omega
  · have henough' := g.enough_le hc'
    have hrun : p.reader g.blank (g.enough c + 1) (g.reader (g.enough c + 1)) ⟨m, l⟩ c' a =
        g.run (.expr p) ⟨m, l⟩ c' a := L.expr_eq_run hsp (by omega)
    rw [hrun]
    exact ⟨L.run_derives hsp, (L.expr_eq_run hsp (by omega)).symm⟩

/-- Reading a text is reading it without a bound. -/
theorem read_eq_run (r : R) (text : List Char) :
    g.read r text = g.run (.expr (.call r)) ⟨.spaced, .consuming⟩ (.ofText text) .none := by
  have hrank := L.rank_lt r
  refine L.reader_stable _ _ r _ _ _ _ ?_ ?_
  · show g.rules.length * text.length + L.rank r < g.rules.length * (text.length + 1)
    rw [Nat.mul_add, Nat.mul_one]
    omega
  · show g.rules.length * text.length + L.rank r < g.enough (.ofText text)
    simp only [Grammar.enough, Cursor.ofText, Nat.mul_add, Nat.mul_one]
    omega

end Layering

/-! ### Readings one after the other -/

section After

variable {p q : Reader R} {s : Setting} {m : Mode} {l : Look} {c c₁ : Cursor} {a a₁ : Attempts R}
  {before : List (Node R)}

/-- An outcome behind nodes that were left before. -/
def Outcome.after (before : List (Node R)) (o : Outcome R) : Outcome R :=
  ⟨o.result.map fun x => (x.1, before ++ x.2), o.attempts⟩

theorem Outcome.after_nil (o : Outcome R) : o.after [] = o := by
  obtain ⟨_ | x, a⟩ := o <;> rfl

theorem Outcome.after_after (before between : List (Node R)) (o : Outcome R) :
    (o.after between).after before = o.after (before ++ between) := by
  obtain ⟨_ | x, a⟩ := o
  · rfl
  · simp only [after, Option.map_some, List.append_assoc]

theorem Reader.seq_of_none (hp : p s c a = ⟨none, a₁⟩) : Reader.seq p q s c a = ⟨none, a₁⟩ := by
  simp only [Reader.seq, hp]

theorem Reader.seq_of_some (hp : p s c a = ⟨some (c₁, before), a₁⟩) :
    Reader.seq p q s c a = (q s c₁ a₁).after before := by
  simp only [Reader.seq, hp]
  generalize q s c₁ a₁ = o
  obtain ⟨_ | x, a⟩ := o <;> rfl

theorem Reader.seq_after {c' : Cursor} {a' : Attempts R} (hp : p s c a = (p s c' a').after before) :
    Reader.seq p q s c a = (Reader.seq p q s c' a').after before := by
  simp only [Reader.seq, hp]
  generalize p s c' a' = o
  obtain ⟨_ | ⟨c₁, between⟩, a₁⟩ := o
  · rfl
  · simp only [Outcome.after, Option.map_some]
    generalize q s c₁ a₁ = o
    obtain ⟨_ | x, a₂⟩ := o
    · rfl
    · simp only [Option.map_some, List.append_assoc]

theorem Reader.afterBlanks_of_flush (hc : g.Flush c.rest) :
    p.afterBlanks g.blank ⟨m, l⟩ c a = p ⟨m, l⟩ c a := by
  show p ⟨m, l⟩ (g.skip m c) a = p ⟨m, l⟩ c a
  rw [Grammar.skip_of_flush hc]

end After

namespace Layering

variable (L : Layering g) {e : Expr R} (hs : (Expr.many e).steady L.empty = true) {q : Reader R}
  {m : Mode} {l : Look} {c c₁ : Cursor} {a a₁ : Attempts R} {before : List (Node R)}

include hs

/-- A repetition does not fail. -/
theorem run_more_after (before : List (Node R)) (c : Cursor) (a : Attempts R) :
    ∃ x a₁, (g.run (.more e) ⟨m, l⟩ c a).after before = ⟨some x, a₁⟩ := by
  have hmore : Derives g m (.more e) c (g.run (.more e) ⟨m, l⟩ c a).result := L.run_derives hs
  generalize g.run (.more e) ⟨m, l⟩ c a = o at hmore
  obtain ⟨x, a₁⟩ := o
  cases hmore with
  | more => exact ⟨_, _, rfl⟩
  | moreNone => exact ⟨_, _, rfl⟩

/-- Behind a first round, a repetition goes on. -/
theorem run_many_of_some (h : g.run (.expr e) ⟨m, l⟩ c a = ⟨some (c₁, before), a₁⟩) :
    g.run (.expr (.many e)) ⟨m, l⟩ c a = (g.run (.more e) ⟨m, l⟩ c₁ a₁).after before := by
  obtain ⟨x, a₂, hx⟩ := L.run_more_after (m := m) (l := l) hs before c₁ a₁
  rw [L.run_many hs, Reader.opt, Reader.seq_of_some h, hx]

theorem run_more_of_some
    (h : g.run (.expr e) ⟨m, l⟩ (g.skip m c) a = ⟨some (c₁, before), a₁⟩) :
    g.run (.more e) ⟨m, l⟩ c a = (g.run (.more e) ⟨m, l⟩ c₁ a₁).after before := by
  have hround : (g.run (.expr e)).afterBlanks g.blank ⟨m, l⟩ c a = ⟨some (c₁, before), a₁⟩ := h
  obtain ⟨x, a₂, hx⟩ := L.run_more_after (m := m) (l := l) hs before c₁ a₁
  rw [L.run_more hs, Reader.opt, Reader.seq_of_some hround, hx]

/-- Between blanks and what skips blanks, a repetition may as well skip them itself. -/
theorem seq_many_skip :
    Reader.seq (g.run (.expr (.many e))) (q.afterBlanks g.blank) ⟨m, l⟩ (g.skip m c) a =
      Reader.seq (g.run (.more e)) (q.afterBlanks g.blank) ⟨m, l⟩ c a := by
  cases hround : g.run (.expr e) ⟨m, l⟩ (g.skip m c) a with
  | mk x a₁ =>
    cases x with
    | some z =>
      obtain ⟨c₁, before⟩ := z
      have heq := (L.run_many_of_some hs hround).trans (L.run_more_of_some hs hround).symm
      simp only [Reader.seq, heq]
    | none =>
      have hblanks : (g.run (.expr e)).afterBlanks g.blank ⟨m, l⟩ c a = ⟨none, a₁⟩ := hround
      have hmany : g.run (.expr (.many e)) ⟨m, l⟩ (g.skip m c) a = ⟨some (g.skip m c, []), a₁⟩ := by
        rw [L.run_many hs, Reader.opt, Reader.seq_of_none hround]
      have hmore : g.run (.more e) ⟨m, l⟩ c a = ⟨some (c, []), a₁⟩ := by
        rw [L.run_more hs, Reader.opt, Reader.seq_of_none hblanks]
      have hskip : q.afterBlanks g.blank ⟨m, l⟩ (g.skip m c) a₁ =
          q.afterBlanks g.blank ⟨m, l⟩ c a₁ := congrArg (q ⟨m, l⟩ · a₁) (Grammar.skip_skip m c)
      rw [Reader.seq_of_some hmany, Reader.seq_of_some hmore, hskip]

end Layering

end Peg
end Pseudonym

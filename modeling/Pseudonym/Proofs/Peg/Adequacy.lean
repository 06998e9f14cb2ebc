/-
# Readers and derivations

A grammar's reader, bounded as it is, gives what can be derived, provided the
grammar is layered: a rule that another one calls before anything is read has
a lower rank, and every round of a repetition reads something. A chain of
calls at one place then goes down in rank, so the number of rules bounds it,
and no repetition has more rounds than there are characters left.

Derivations have one result at most, so what is derived at the start of a text
is what reading it gives (`Layering.read_derives`). Every expression has a
result everywhere (`Layering.total`).
-/
import Pseudonym.Proofs.Peg.Derivation

namespace Pseudonym
namespace Peg

variable {R : Type}

namespace Expr

/-- Whether an expression may succeed without reading anything, given the rules that may. -/
def mayBeEmpty (empty : R → Bool) : Expr R → Bool
  | .word w => w.isEmpty
  | .one _ => false
  | .start => true
  | .finish => true
  | .call r => empty r
  | .seq p q => p.mayBeEmpty empty && q.mayBeEmpty empty
  | .alt p q => p.mayBeEmpty empty || q.mayBeEmpty empty
  | .opt _ => true
  | .many _ => true
  | .notAhead _ => true

/-- The rules that an expression may call before anything is read. -/
def heads (empty : R → Bool) : Expr R → List R
  | .word _ => []
  | .one _ => []
  | .start => []
  | .finish => []
  | .call r => [r]
  | .seq p q => p.heads empty ++ if p.mayBeEmpty empty then q.heads empty else []
  | .alt p q => p.heads empty ++ q.heads empty
  | .opt p => p.heads empty
  | .many p => p.heads empty
  | .notAhead p => p.heads empty

/-- Whether every round of every repetition reads something. -/
def steady (empty : R → Bool) : Expr R → Bool
  | .word _ => true
  | .one _ => true
  | .start => true
  | .finish => true
  | .call _ => true
  | .seq p q => p.steady empty && q.steady empty
  | .alt p q => p.steady empty && q.steady empty
  | .opt p => p.steady empty
  | .many p => !p.mayBeEmpty empty && p.steady empty
  | .notAhead p => p.steady empty

end Expr

/-- A grammar whose rules go down in rank until something is read. -/
structure Layering (g : Grammar R) where
  /-- The rules that may read nothing. -/
  empty : R → Bool
  rank : R → Nat
  empty_body : ∀ r, (g.body r).mayBeEmpty empty = true → empty r = true
  rank_lt : ∀ r, rank r < g.rules.length
  rank_heads : ∀ r, ∀ r' ∈ (g.body r).heads empty, rank r' < rank r
  steady : ∀ r, (g.body r).steady empty = true

/-- Whether what is to be read may be nothing. -/
def Goal.mayBeEmpty (empty : R → Bool) : Goal R → Bool
  | .expr e => e.mayBeEmpty empty
  | .more _ => true

variable {g : Grammar R}

theorem Derives.length_le {m : Mode} {t : Goal R} {c c' : Cursor} {ns : List (Node R)}
    (h : Derives g m t c (some (c', ns))) : c'.rest.length ≤ c.rest.length := by
  obtain ⟨w, hw⟩ := h.past _ rfl
  have hlen : c.rest.length = w.length + c'.rest.length := hw.length
  omega

/-- A reading that leaves no less than there was has stayed where it was. -/
theorem Derives.eq_of_length_le {m : Mode} {t : Goal R} {c c' : Cursor} {ns : List (Node R)}
    (h : Derives g m t c (some (c', ns))) (hle : c.rest.length ≤ c'.rest.length) : c' = c := by
  obtain ⟨w, hw⟩ := h.past _ rfl
  exact hw.eq_of_length_le hle

theorem Grammar.length_skip_le (g : Grammar R) (m : Mode) (c : Cursor) :
    (g.skip m c).rest.length ≤ c.rest.length := by
  obtain ⟨b, hb⟩ := g.past_skip m c
  have hlen := hb.length
  omega

/-! ### Steps of a reader

A combinator gives what is derived where its parts do. The part that is read second is asked for
only where the first one has led. -/

namespace Reader

variable {m : Mode} {l : Look} {e e' : Expr R} {p q : Reader R} {c : Cursor} {a : Attempts R}

theorem seq_derives (hp : Derives g m (.expr e) c (p ⟨m, l⟩ c a).result)
    (hq : ∀ c₁ before a₁, Derives g m (.expr e) c (some (c₁, before)) →
      Derives g m (.expr e') (g.skip m c₁) (q ⟨m, l⟩ (g.skip m c₁) a₁).result) :
    Derives g m (.expr (.seq e e')) c (seq p (q.afterBlanks g.blank) ⟨m, l⟩ c a).result := by
  simp only [seq]
  generalize p ⟨m, l⟩ c a = o at hp
  obtain ⟨_ | ⟨c₁, before⟩, a₁⟩ := o
  · exact .seqFails hp
  · have hq := hq c₁ before a₁ hp
    have happly : q.afterBlanks g.blank ⟨m, l⟩ c₁ a₁ = q ⟨m, l⟩ (g.skip m c₁) a₁ := rfl
    simp only [happly]
    generalize q ⟨m, l⟩ (g.skip m c₁) a₁ = o at hq
    obtain ⟨_ | ⟨c₂, after⟩, a₂⟩ := o
    · exact .seq hp hq rfl
    · exact .seq hp hq rfl

theorem alt_derives (hp : Derives g m (.expr e) c (p ⟨m, l⟩ c a).result)
    (hq : ∀ a₁, Derives g m (.expr e') c (q ⟨m, l⟩ c a₁).result) :
    Derives g m (.expr (.alt e e')) c (alt p q ⟨m, l⟩ c a).result := by
  simp only [alt]
  generalize p ⟨m, l⟩ c a = o at hp
  obtain ⟨_ | z, a₁⟩ := o
  · exact .second hp (hq a₁)
  · exact .first hp

theorem opt_derives (hp : Derives g m (.expr e) c (p ⟨m, l⟩ c a).result) :
    Derives g m (.expr (.opt e)) c (opt p ⟨m, l⟩ c a).result := by
  simp only [opt]
  generalize p ⟨m, l⟩ c a = o at hp
  obtain ⟨_ | z, a₁⟩ := o
  · exact .optNone hp
  · exact .opt hp

theorem many_derives {n : Nat} (hp : Derives g m (.expr e) c (p ⟨m, l⟩ c a).result)
    (hmore : ∀ c₁ before a₁, Derives g m (.expr e) c (some (c₁, before)) →
      Derives g m (.more e) c₁ (rounds (p.afterBlanks g.blank) n ⟨m, l⟩ c₁ a₁).result) :
    Derives g m (.expr (.many e)) c (many g.blank n p ⟨m, l⟩ c a).result := by
  simp only [many, opt, seq]
  generalize p ⟨m, l⟩ c a = o at hp
  obtain ⟨_ | ⟨c₁, before⟩, a₁⟩ := o
  · exact .manyNone hp
  · have hmore := hmore c₁ before a₁ hp
    dsimp only
    generalize rounds (p.afterBlanks g.blank) n ⟨m, l⟩ c₁ a₁ = o at hmore
    obtain ⟨_ | ⟨c₂, after⟩, a₂⟩ := o
    · cases hmore
    · exact .many hp hmore

theorem notAhead_derives (hp : Derives g m (.expr e) c (p ⟨m, l.negate⟩ c a).result) :
    Derives g m (.expr (.notAhead e)) c (notAhead p ⟨m, l⟩ c a).result := by
  simp only [notAhead]
  generalize p ⟨m, l.negate⟩ c a = o at hp
  obtain ⟨_ | z, a₁⟩ := o
  · exact .notAhead hp
  · exact .notAheadFails hp

end Reader

namespace Layering

variable (L : Layering g)

/-- What cannot be empty reads something where it succeeds. -/
theorem length_lt {m : Mode} {t : Goal R} {c : Cursor} {x : Option (Cursor × List (Node R))}
    (h : Derives g m t c x) (ht : t.mayBeEmpty L.empty = false) :
    ∀ z ∈ x, z.1.rest.length < c.rest.length := by
  induction h with
  | @word m w c x hx =>
    rintro z rfl
    obtain ⟨c', hc', rfl⟩ := Option.map_eq_some_iff.mp hx
    have hlen := (Cursor.word?_eq_some_iff.mp hc').length
    have hw : w ≠ [] := by simpa [Goal.mayBeEmpty, Expr.mayBeEmpty] using ht
    have hpos : 0 < w.length := List.length_pos_iff.mpr hw
    show c'.rest.length < c.rest.length
    omega
  | one hx =>
    rintro z rfl
    obtain ⟨c', hc', rfl⟩ := Option.map_eq_some_iff.mp hx
    obtain ⟨y, -, hpast⟩ := Cursor.one?_eq_some_iff.mp hc'
    have hlen := hpast.length
    rw [List.length_singleton] at hlen
    exact hlen ▸ Nat.lt_add_of_pos_left Nat.one_pos
  | start hx => cases ht
  | finish hx => cases ht
  | @call m r c x y _ hx ih =>
    rintro z rfl
    obtain ⟨z', rfl, rfl⟩ := Option.map_eq_some_iff.mp hx
    refine ih ?_ z' rfl
    cases hbody : (g.body r).mayBeEmpty L.empty with
    | false => exact hbody
    | true =>
      have hr : L.empty r = true := L.empty_body r hbody
      have hr' : L.empty r = false := ht
      rw [hr] at hr'
      cases hr'
  | @seq m p q c c₁ before x y hp hq hx ihp ihq =>
    rintro z rfl
    obtain ⟨z', rfl, rfl⟩ := Option.map_eq_some_iff.mp hx
    have hp' := hp.length_le
    have hskip := g.length_skip_le m c₁
    have hq' := hq.length_le
    show z'.1.rest.length < c.rest.length
    rcases Bool.and_eq_false_iff.mp ht with ht | ht
    · have hlt : c₁.rest.length < c.rest.length := ihp ht _ rfl
      omega
    · have hlt : z'.1.rest.length < (g.skip m c₁).rest.length := ihq ht _ rfl
      omega
  | seqFails => rintro z ⟨⟩
  | first _ ihp => exact ihp (Bool.or_eq_false_iff.mp ht).1
  | second _ _ _ ihq => exact ihq (Bool.or_eq_false_iff.mp ht).2
  | opt => cases ht
  | optNone => cases ht
  | many => cases ht
  | manyNone => cases ht
  | more => cases ht
  | moreNone => cases ht
  | notAhead => cases ht
  | notAheadFails => cases ht

/-- Rounds of a reader that reads something each time are all the rounds there are. -/
theorem rounds_derives {m : Mode} {l : Look} {e : Expr R} {p : Reader R}
    (he : e.mayBeEmpty L.empty = false) : ∀ (n : Nat) (c : Cursor) (a : Attempts R),
    c.rest.length ≤ n →
    (∀ c' a, c'.rest.length ≤ c.rest.length → Derives g m (.expr e) c' (p ⟨m, l⟩ c' a).result) →
    Derives g m (.more e) c ((Reader.rounds (p.afterBlanks g.blank) n) ⟨m, l⟩ c a).result
  | 0, c, a, hn, hp => by
    have hskip := g.length_skip_le m c
    have hround := hp (g.skip m c) a hskip
    cases hres : (p ⟨m, l⟩ (g.skip m c) a).result with
    | none =>
      rw [hres] at hround
      exact .moreNone hround
    | some z =>
      rw [hres] at hround
      have hlt := L.length_lt hround he z rfl
      omega
  | n + 1, c, a, hn, hp => by
    have hskip := g.length_skip_le m c
    have hround := hp (g.skip m c) a hskip
    show Derives g m (.more e) c (Reader.opt (Reader.seq (p.afterBlanks g.blank)
      (Reader.rounds (p.afterBlanks g.blank) n)) ⟨m, l⟩ c a).result
    have happly : p.afterBlanks g.blank ⟨m, l⟩ c a = p ⟨m, l⟩ (g.skip m c) a := rfl
    simp only [Reader.opt, Reader.seq, happly]
    generalize p ⟨m, l⟩ (g.skip m c) a = o at hround
    obtain ⟨_ | ⟨c₁, before⟩, a₁⟩ := o
    · exact .moreNone hround
    · have hlt := L.length_lt hround he _ rfl
      have hlt' : c₁.rest.length < (g.skip m c).rest.length := hlt
      have ih := rounds_derives he n c₁ a₁ (by omega) fun c' a hc' => hp c' a (by omega)
      dsimp only
      generalize Reader.rounds (p.afterBlanks g.blank) n ⟨m, l⟩ c₁ a₁ = o at ih
      obtain ⟨_ | ⟨c₂, after⟩, a₂⟩ := o
      · cases ih
      · exact .more hround ih

/-- The reader of an expression gives what is derived, if the readers of the rules do: at the
same place those that may be called first, and further on all of them. -/
theorem expr_derives (n : Nat) (rules : R → Reader R) (m : Mode) : ∀ (e : Expr R) (l : Look)
    (c : Cursor) (a : Attempts R), e.steady L.empty = true → c.rest.length ≤ n →
    (∀ r l c' a, c'.rest.length ≤ c.rest.length →
      r ∈ e.heads L.empty ∨ c'.rest.length < c.rest.length →
      Derives g m (.expr (.call r)) c' (rules r ⟨m, l⟩ c' a).result) →
    Derives g m (.expr e) c (e.reader g.blank n rules ⟨m, l⟩ c a).result
  | .word w, l, c, a, _, _, _ => .word rfl
  | .one cls, l, c, a, _, _, _ => .one rfl
  | .start, l, c, a, _, _, _ => by
    refine .start ?_
    show _ = (if c.place.offset = 0 then some c else none).map (·, [])
    split <;> rfl
  | .finish, l, c, a, _, _, _ => by
    refine .finish ?_
    show _ = (if c.rest.isEmpty then some c else none).map (·, [])
    split <;> rfl
  | .call r, l, c, a, _, _, hcalls =>
    hcalls r l c a (Nat.le_refl _) (.inl (List.mem_singleton.mpr rfl))
  | .seq p q, l, c, a, hs, hn, hcalls => by
    obtain ⟨hsp, hsq⟩ := Bool.and_eq_true_iff.mp hs
    have hp := expr_derives n rules m p l c a hsp hn fun r l c' a hle hr =>
      hcalls r l c' a hle (hr.imp_left (List.mem_append_left _))
    refine Reader.seq_derives hp fun c₁ before a₁ hp₁ => ?_
    have hle := hp₁.length_le
    have hskip := g.length_skip_le m c₁
    refine expr_derives n rules m q l (g.skip m c₁) a₁ hsq (by omega) fun r l c' a hle' hr => ?_
    refine hcalls r l c' a (by omega) ?_
    cases hempty : p.mayBeEmpty L.empty with
    | true =>
      refine hr.imp (fun hr => ?_) (fun hlt => by omega)
      rw [Expr.heads, hempty]
      exact List.mem_append_right _ hr
    | false =>
      have hlt : c₁.rest.length < c.rest.length := L.length_lt hp₁ hempty _ rfl
      exact .inr (by omega)
  | .alt p q, l, c, a, hs, hn, hcalls => by
    obtain ⟨hsp, hsq⟩ := Bool.and_eq_true_iff.mp hs
    have hp := expr_derives n rules m p l c a hsp hn fun r l c' a hle hr =>
      hcalls r l c' a hle (hr.imp_left (List.mem_append_left _))
    refine Reader.alt_derives hp fun a₁ => ?_
    exact expr_derives n rules m q l c a₁ hsq hn fun r l c' a hle hr =>
      hcalls r l c' a hle (hr.imp_left (List.mem_append_right _))
  | .opt p, l, c, a, hs, hn, hcalls =>
    Reader.opt_derives (expr_derives n rules m p l c a hs hn hcalls)
  | .many p, l, c, a, hs, hn, hcalls => by
    obtain ⟨hempty, hsp⟩ := Bool.and_eq_true_iff.mp hs
    have hempty : p.mayBeEmpty L.empty = false := by simpa using hempty
    have hp := expr_derives n rules m p l c a hsp hn hcalls
    refine Reader.many_derives hp fun c₁ before a₁ hp₁ => ?_
    have hlt : c₁.rest.length < c.rest.length := L.length_lt hp₁ hempty _ rfl
    -- Behind the first round every rule may be called.
    exact L.rounds_derives hempty n c₁ a₁ (by omega) fun c' a hc' =>
      expr_derives n rules m p l c' a hsp (by omega) fun r l c'' a hle _ =>
        hcalls r l c'' a (by omega) (.inr (by omega))
  | .notAhead p, l, c, a, hs, hn, hcalls =>
    Reader.notAhead_derives (expr_derives n rules m p l.negate c a hs hn hcalls)

theorem rule_result (kind : RuleKind) (r : R) (body : Reader R) (m : Mode) (l : Look) (c : Cursor)
    (a : Attempts R) (hkind : g.kind r = kind) : (Reader.rule kind r body ⟨m, l⟩ c a).result =
      (body ⟨kind.innerMode m, l⟩ c a).result.map (g.leave r m c) := by
  subst hkind
  simp only [Reader.rule]
  generalize body ⟨(g.kind r).innerMode m, l⟩ c a = o
  obtain ⟨_ | ⟨c₁, children⟩, a₁⟩ := o
  · rfl
  · rfl

/-- A rule's reader gives what is derived where its bound covers the text left and its rank. -/
theorem reader_derives : ∀ (n : Nat) (r : R) (m : Mode) (l : Look) (c : Cursor) (a : Attempts R),
    g.rules.length * c.rest.length + L.rank r < n →
    Derives g m (.expr (.call r)) c (g.reader n r ⟨m, l⟩ c a).result
  | 0, r, m, l, c, a, hn => by omega
  | n + 1, r, m, l, c, a, hn => by
    have hrank := L.rank_lt r
    have hlen : c.rest.length ≤ g.rules.length * c.rest.length :=
      Nat.le_mul_of_pos_left _ (by omega)
    have hbody := L.expr_derives n (g.reader n) ((g.kind r).innerMode m) (g.body r) l c a
      (L.steady r) (by omega) fun r' l c' a hle hr => by
        refine reader_derives n r' _ l c' a ?_
        have hmul : g.rules.length * c'.rest.length ≤ g.rules.length * c.rest.length :=
          Nat.mul_le_mul_left _ hle
        rcases hr with hr | hlt
        · have hlow := L.rank_heads r r' hr
          omega
        · have hlow := L.rank_lt r'
          have hmul : g.rules.length * (c'.rest.length + 1) ≤ g.rules.length * c.rest.length :=
            Nat.mul_le_mul_left _ hlt
          rw [Nat.mul_add, Nat.mul_one] at hmul
          omega
    refine .call hbody ?_
    rw [Grammar.reader, rule_result _ r _ m l c a rfl]

/-- Reading a text gives what is derived at its start. -/
theorem read_derives (L : Layering g) (r : R) (text : List Char) :
    Derives g .spaced (.expr (.call r)) (.ofText text) (g.read r text).result := by
  refine L.reader_derives _ r _ _ _ _ ?_
  have hrank := L.rank_lt r
  show g.rules.length * text.length + L.rank r < g.rules.length * (text.length + 1)
  rw [Nat.mul_add, Nat.mul_one]
  omega

/-- Every expression with steady repetitions has a result everywhere. -/
theorem total (m : Mode) (e : Expr R) (c : Cursor) (he : e.steady L.empty = true) :
    ∃ x, Derives g m (.expr e) c x := by
  let n := g.rules.length * (c.rest.length + 1) + c.rest.length
  refine ⟨_, L.expr_derives n (g.reader n) m e .consuming c .none he
    (Nat.le_add_left _ _) fun r l c' a hle _ => L.reader_derives n r m l c' a ?_⟩
  have hrank := L.rank_lt r
  have hmul : g.rules.length * c'.rest.length ≤ g.rules.length * c.rest.length :=
    Nat.mul_le_mul_left _ hle
  have hn : n = g.rules.length * c.rest.length + g.rules.length + c.rest.length := by
    simp only [n, Nat.mul_add, Nat.mul_one]
  omega

end Layering

end Peg
end Pseudonym

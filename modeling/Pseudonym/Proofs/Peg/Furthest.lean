/-
# What stays true of the furthest attempts

Attempts are handed on from reader to reader, through alternatives that fail
and rounds that are given back, and change only where a rule goes wrong. In a
grammar whose negations call no rules, that is where a rule fails: nothing is
ever recorded as unexpected. So what one such record keeps, a whole reading
keeps (`Layering.run_keeps`).

A record leaves the attempts as they are, or some rule is expected afterwards.
A rule that fails without any attempts of its own is never left behind: the
furthest place is not before it (`Attempts.le_place_record_self`).
-/
import Pseudonym.Proofs.Peg.SideBySide

namespace Pseudonym
namespace Peg

variable {R : Type} {g : Grammar R}

/-! ### One record -/

namespace Attempts

variable (a e : Attempts R) (r : R) (p : Place)

/-- What recording a failed rule can do: nothing, where one attempt of its own is more telling or
where there are attempts further on; put it behind some of those at its place; or start anew at its
place. -/
theorem record_cases :
    (a.record e r p false = a ∧ (a.countAt p = e.countAt p + 1 ∨ p.offset < a.place.offset)) ∨
    (p.offset = a.place.offset ∧ ∃ n n', a.record e r p false =
      ⟨a.place, a.expected.take n ++ [r], a.unexpected.take n'⟩) ∨
    (a.place.offset < p.offset ∧ a.record e r p false = ⟨p, [r], []⟩) := by
  have hadd : ∀ b : Attempts R, p.offset = b.place.offset →
      b.add r p false = ⟨b.place, b.expected ++ [r], b.unexpected⟩ := by
    intro b hb
    rw [add, if_pos hb, if_neg Bool.false_ne_true]
  unfold record
  split
  next hcount => exact .inl ⟨rfl, .inl hcount⟩
  next =>
    unfold restartAt
    split
    next hp =>
      refine .inr (.inl ⟨hp, ?_⟩)
      split
      · exact ⟨_, _, hadd _ hp⟩
      · exact ⟨0, 0, hadd _ hp⟩
    next hp =>
      split
      next hlt => exact .inr (.inr ⟨hlt, hadd _ rfl⟩)
      next hlt =>
        refine .inl ⟨?_, .inr (by omega)⟩
        rw [add, if_neg hp]

/-- A failed rule leaves the attempts as they are, or something is expected. -/
theorem record_eq_or : a.record e r p false = a ∨ (a.record e r p false).expected ≠ [] := by
  rcases record_cases a e r p with ⟨heq, -⟩ | ⟨-, n, n', heq⟩ | ⟨-, heq⟩
  · exact .inl heq
  · right
    simp [heq]
  · right
    simp [heq]

theorem unexpected_record (ha : a.unexpected = []) : (a.record e r p false).unexpected = [] := by
  rcases record_cases a e r p with ⟨heq, -⟩ | ⟨-, n, n', heq⟩ | ⟨-, heq⟩
  · rw [heq, ha]
  · simp [heq, ha]
  · rw [heq]

/-- What is expected behind a record was so before, at the same place, or is the failed rule
itself. -/
theorem mem_expected_record {r' : R} (h : r' ∈ (a.record e r p false).expected) :
    (r' ∈ a.expected ∧ (a.record e r p false).place.offset = a.place.offset) ∨
      (r' = r ∧ (a.record e r p false).place.offset = p.offset) := by
  rcases record_cases a e r p with ⟨heq, -⟩ | ⟨hp, n, n', heq⟩ | ⟨-, heq⟩
  · rw [heq] at h ⊢
    exact .inl ⟨h, rfl⟩
  · rw [heq] at h ⊢
    rcases List.mem_append.mp h with h | h
    · exact .inl ⟨List.mem_of_mem_take h, rfl⟩
    · exact .inr ⟨List.mem_singleton.mp h, hp.symm⟩
  · rw [heq] at h ⊢
    exact .inr ⟨List.mem_singleton.mp h, rfl⟩

/-- A rule that fails without attempts of its own moves the furthest place up to its own. -/
theorem le_place_record_self : p.offset ≤ (a.record a r p false).place.offset := by
  rcases record_cases a a r p with ⟨heq, hcount | hlt⟩ | ⟨hp, n, n', heq⟩ | ⟨-, heq⟩
  · omega
  · rw [heq]
    exact Nat.le_of_lt hlt
  · rw [heq]
    exact Nat.le_of_eq hp
  · have hplace : (a.record a r p false).place = p := by rw [heq]
    exact Nat.le_of_eq (congrArg Place.offset hplace.symm)

/-- A rule that fails at the start of a text leaves something expected, if attempts further on
do. -/
theorem expected_record_origin_ne_nil (hunexpected : a.unexpected = [])
    (hexpected : a.place.offset ≠ 0 → a.expected ≠ []) :
    (a.record .none r .origin false).expected ≠ [] := by
  rcases record_cases a .none r .origin with ⟨heq, hcount | hlt⟩ | ⟨-, n, n', heq⟩ | ⟨hlt, -⟩
  · -- Exactly one rule is remembered at the start.
    rw [heq]
    intro hnil
    have hzero : a.countAt .origin = 0 := by
      unfold countAt
      split <;> simp [hnil, hunexpected]
    omega
  · rw [heq]
    exact hexpected (Nat.ne_of_gt hlt)
  · simp [heq]
  · exact absurd hlt (Nat.not_lt_zero _)

end Attempts

/-! ### A whole reading -/

/-- Whether the negations in an expression call no rules. -/
def Expr.upright : Expr R → Bool
  | .word _ => true
  | .one _ => true
  | .start => true
  | .finish => true
  | .call _ => true
  | .seq p q => p.upright && q.upright
  | .alt p q => p.upright && q.upright
  | .opt p => p.upright
  | .many p => p.upright
  | .notAhead p => p.isSilent

/-- Whether the negations in what is to be read call no rules. -/
def Goal.upright : Goal R → Bool
  | .expr e => e.upright
  | .more e => e.upright

namespace Reader

variable {I : Attempts R → Prop} {p q : Reader R} {s : Setting} {c : Cursor} {a : Attempts R}

theorem seq_keeps (hp : I (p s c a).attempts)
    (hq : ∀ c₁ before a₁, (p s c a).result = some (c₁, before) → I a₁ → I (q s c₁ a₁).attempts) :
    I (seq p q s c a).attempts := by
  simp only [seq]
  generalize p s c a = o at hp hq
  obtain ⟨_ | ⟨c₁, before⟩, a₁⟩ := o
  · exact hp
  · have hq := hq c₁ before a₁ rfl hp
    dsimp only
    generalize q s c₁ a₁ = o at hq
    obtain ⟨_ | ⟨c₂, after⟩, a₂⟩ := o
    · exact hq
    · exact hq

theorem alt_keeps (hp : I (p s c a).attempts)
    (hq : (p s c a).result = none → ∀ a₁, I a₁ → I (q s c a₁).attempts) :
    I (alt p q s c a).attempts := by
  simp only [alt]
  generalize p s c a = o at hp hq
  obtain ⟨_ | z, a₁⟩ := o
  · exact hq rfl a₁ hp
  · exact hp

theorem opt_keeps (hp : I (p s c a).attempts) : I (opt p s c a).attempts := by
  simp only [opt]
  generalize p s c a = o at hp
  obtain ⟨_ | z, a₁⟩ := o
  · exact hp
  · exact hp

end Reader

namespace Layering

variable (L : Layering g) {I : Attempts R → Prop} {c₀ : Cursor}

/-- What every failure of a rule behind `c₀` keeps, a reading keeps. -/
theorem run_keeps
    (hrecord : ∀ r m w c a e, Cursor.Past w c₀ c → Derives g m (.expr (.call r)) c none →
      I a → I e → I (a.record e r c.place false))
    (hbodies : ∀ r, (g.body r).upright = true)
    {m : Mode} {t : Goal R} {c : Cursor} {x : Option (Cursor × List (Node R))}
    (h : Derives g m t c x) : ∀ {w}, Cursor.Past w c₀ c → t.steady L.empty = true →
      t.upright = true → ∀ a, I a → I (g.run t ⟨m, .consuming⟩ c a).attempts := by
  induction h with
  | word | one | start | finish => exact fun _ _ _ _ ha => ha
  | @call m r c x y hbody hx ih =>
    intro w hc _ _ a ha
    have hkept := ih hc (L.steady r) (hbodies r) a ha
    have hresult : (g.run (.expr (g.body r)) ⟨(g.kind r).innerMode m, .consuming⟩ c a).result = y :=
      L.run_result hbody (L.steady r)
    rw [L.run_call, Reader.rule]
    dsimp only
    generalize g.run (.expr (g.body r)) ⟨(g.kind r).innerMode m, .consuming⟩ c a = o at hkept hresult
    obtain ⟨_ | ⟨c₁, children⟩, a₁⟩ := o
    · -- The rule has failed; in the atomic mode it is not recorded.
      obtain rfl : none = y := hresult
      have hfails : Derives g m (.expr (.call r)) c none := .call hbody rfl
      dsimp only
      split
      · exact hkept
      · exact hrecord r m w c a₁ a hc hfails hkept ha
    · simpa using hkept
  | @seq m p q c c₁ before x y hp hq hx ihp ihq =>
    intro w hc hs ht a ha
    obtain ⟨hsp, hsq⟩ := Bool.and_eq_true_iff.mp hs
    obtain ⟨htp, htq⟩ := Bool.and_eq_true_iff.mp ht
    rw [L.run_seq hs]
    refine Reader.seq_keeps (ihp hc hsp htp a ha) fun c₂ ns a₁ hres ha₁ => ?_
    cases (L.run_result hp hsp).symm.trans hres
    obtain ⟨v, hv⟩ := hp.past _ rfl
    obtain ⟨b, hb⟩ := g.past_skip m c₁
    exact ihq ((hc.trans hv).trans hb) hsq htq a₁ ha₁
  | @seqFails m p q c hp ihp =>
    intro w hc hs ht a ha
    obtain ⟨hsp, hsq⟩ := Bool.and_eq_true_iff.mp hs
    rw [L.run_seq hs]
    refine Reader.seq_keeps (ihp hc hsp (Bool.and_eq_true_iff.mp ht).1 a ha) ?_
    intro c₂ ns a₁ hres _
    cases (L.run_result hp hsp).symm.trans hres
  | @first m p q c x hp ihp =>
    intro w hc hs ht a ha
    have hsp := (Bool.and_eq_true_iff.mp hs).1
    rw [Grammar.run_alt]
    refine Reader.alt_keeps (ihp hc hsp (Bool.and_eq_true_iff.mp ht).1 a ha) fun hres => ?_
    cases (L.run_result hp hsp).symm.trans hres
  | second _ _ ihp ihq =>
    intro w hc hs ht a ha
    obtain ⟨hsp, hsq⟩ := Bool.and_eq_true_iff.mp hs
    obtain ⟨htp, htq⟩ := Bool.and_eq_true_iff.mp ht
    rw [Grammar.run_alt]
    exact Reader.alt_keeps (ihp hc hsp htp a ha) fun _ => ihq hc hsq htq
  | opt _ ihp | optNone _ ihp =>
    intro w hc hs ht a ha
    rw [Grammar.run_opt]
    exact Reader.opt_keeps (ihp hc hs ht a ha)
  | @many m p c c₁ c₂ before after hp hmore ihp ihmore =>
    intro w hc hs ht a ha
    have hsp := (Bool.and_eq_true_iff.mp hs).2
    rw [L.run_many hs]
    refine Reader.opt_keeps (Reader.seq_keeps (ihp hc hsp ht a ha) fun c₃ ns a₁ hres ha₁ => ?_)
    cases (L.run_result hp hsp).symm.trans hres
    obtain ⟨v, hv⟩ := hp.past _ rfl
    exact ihmore (hc.trans hv) hs ht a₁ ha₁
  | @manyNone m p c hp ihp =>
    intro w hc hs ht a ha
    have hsp := (Bool.and_eq_true_iff.mp hs).2
    rw [L.run_many hs]
    refine Reader.opt_keeps (Reader.seq_keeps (ihp hc hsp ht a ha) fun c₃ ns a₁ hres _ => ?_)
    cases (L.run_result hp hsp).symm.trans hres
  | @more m p c c₁ c₂ before after hp hmore ihp ihmore =>
    intro w hc hs ht a ha
    have hsp := (Bool.and_eq_true_iff.mp hs).2
    obtain ⟨b, hb⟩ := g.past_skip m c
    have hround : I ((g.run (.expr p)).afterBlanks g.blank ⟨m, .consuming⟩ c a).attempts :=
      ihp (hc.trans hb) hsp ht a ha
    rw [L.run_more hs]
    refine Reader.opt_keeps (Reader.seq_keeps hround fun c₃ ns a₁ hres ha₁ => ?_)
    cases (L.run_result hp hsp).symm.trans hres
    obtain ⟨v, hv⟩ := hp.past _ rfl
    exact ihmore ((hc.trans hb).trans hv) hs ht a₁ ha₁
  | @moreNone m p c hp ihp =>
    intro w hc hs ht a ha
    have hsp := (Bool.and_eq_true_iff.mp hs).2
    obtain ⟨b, hb⟩ := g.past_skip m c
    have hround : I ((g.run (.expr p)).afterBlanks g.blank ⟨m, .consuming⟩ c a).attempts :=
      ihp (hc.trans hb) hsp ht a ha
    rw [L.run_more hs]
    refine Reader.opt_keeps (Reader.seq_keeps hround fun c₃ ns a₁ hres _ => ?_)
    cases (L.run_result hp hsp).symm.trans hres
  | notAhead hp | notAheadFails hp =>
    -- A negation without rules attempts nothing.
    intro w hc hs ht a ha
    rw [Grammar.run_notAhead, Reader.notAhead, L.run_silent hp hs ht]
    exact ha

end Layering

end Peg
end Pseudonym

/-
# Reading two texts side by side

Two readings stand beside each other when both fail, or both succeed at
cursors that correspond, with nodes and attempts that correspond. What
corresponds is up to the use: the two texts may differ in their line ends, in
what stands before them or in what follows them.

Each combinator of readers keeps readings beside each other. So an expression
does, once its smallest parts are known to: an `Alignment` names these parts,
its atoms, and `Alignment.beside` goes from them to all that the grammar builds
of them. Where the cursors correspond in the same way before an expression and
behind it, an `Accord` is enough.
-/
import Mathlib.Data.List.Forall2
import Mathlib.Data.Option.Basic
import Pseudonym.Proofs.Peg.Running

namespace Pseudonym
namespace Peg

variable {R : Type} {g : Grammar R}

/-- Which attempts and which nodes of two readings correspond. -/
structure Matching (R : Type) where
  attempts : Attempts R → Attempts R → Prop
  node : Node R → Node R → Prop

/-- The outcomes of two readings from `c` and `c'` that both fail, or both succeed, and at cursors
that `B` relates. -/
inductive Outcome.Beside (M : Matching R) (B : Cursor → Cursor → Prop) (c c' : Cursor) :
    Outcome R → Outcome R → Prop
  | fail {a a'} (ha : M.attempts a a') : Beside M B c c' ⟨none, a⟩ ⟨none, a'⟩
  | read {c₁ c₁' ns ns' a a'} (ha : M.attempts a a') (hc : B c₁ c₁')
    (hpast : ∃ w, Cursor.Past w c c₁) (hpast' : ∃ w, Cursor.Past w c' c₁')
    (hns : List.Forall₂ M.node ns ns') :
    Beside M B c c' ⟨some (c₁, ns), a⟩ ⟨some (c₁', ns'), a'⟩

/-- Two readers, called at `c` and `c'`, have such outcomes. -/
def Reader.Beside (M : Matching R) (B : Cursor → Cursor → Prop) (s : Setting) (c c' : Cursor)
    (p p' : Reader R) : Prop :=
  ∀ a a', M.attempts a a' → Outcome.Beside M B c c' (p s c a) (p' s c' a')

/-- Two readings of the same by a grammar, at `c` and `c'`, have such outcomes. -/
abbrev Grammar.Beside (g : Grammar R) (M : Matching R) (B : Cursor → Cursor → Prop) (s : Setting)
    (c c' : Cursor) (t : Goal R) : Prop :=
  Reader.Beside M B s c c' (g.run t) (g.run t)

namespace Reader.Beside

variable {M : Matching R} {B B₁ : Cursor → Cursor → Prop} {s : Setting} {m : Mode} {l : Look}
  {c c' : Cursor} {p p' q q' : Reader R}

theorem congr (hp : ∀ a, p s c a = q s c a) (hp' : ∀ a, p' s c' a = q' s c' a)
    (h : Beside M B s c c' q q') : Beside M B s c c' p p' := by
  intro a a' ha
  rw [hp, hp']
  exact h a a' ha

/-- What holds of all pairs of cursors that are reached may be added to what relates them. -/
theorem mono (h : Beside M B₁ s c c' p p')
    (hB : ∀ c₁ c₁' ns a, (p s c a).result = some (c₁, ns) → B₁ c₁ c₁' → B c₁ c₁') :
    Beside M B s c c' p p' := by
  intro a a' ha
  have h := h a a' ha
  have hB := fun c₁ c₁' ns => hB c₁ c₁' ns a
  generalize p s c a = o at h hB
  generalize p' s c' a' = o' at h
  cases h with
  | fail ha => exact .fail ha
  | read ha hc hpast hpast' hns => exact .read ha (hB _ _ _ rfl hc) hpast hpast' hns

theorem seq (hp : Beside M B₁ s c c' p p')
    (hq : ∀ c₁ c₁' ns a, (p s c a).result = some (c₁, ns) → B₁ c₁ c₁' →
      Beside M B s c₁ c₁' q q') :
    Beside M B s c c' (Reader.seq p q) (Reader.seq p' q') := by
  intro a a' ha
  have hp := hp a a' ha
  have hq := fun c₁ c₁' ns => hq c₁ c₁' ns a
  simp only [Reader.seq]
  generalize p s c a = o at hp hq
  generalize p' s c' a' = o' at hp
  cases hp with
  | fail ha => exact .fail ha
  | @read c₁ c₁' ns ns' a₁ a₁' ha hc hpast hpast' hns =>
    have hq := hq c₁ c₁' ns rfl hc a₁ a₁' ha
    dsimp only
    generalize q s c₁ a₁ = o at hq
    generalize q' s c₁' a₁' = o' at hq
    cases hq with
    | fail ha => exact .fail ha
    | read ha hc₂ hpast₂ hpast₂' hns₂ =>
      obtain ⟨w, hw⟩ := hpast
      obtain ⟨v, hv⟩ := hpast₂
      obtain ⟨w', hw'⟩ := hpast'
      obtain ⟨v', hv'⟩ := hpast₂'
      exact .read ha hc₂ ⟨_, hw.trans hv⟩ ⟨_, hw'.trans hv'⟩ (List.rel_append hns hns₂)

theorem afterBlanks (h : Beside M B ⟨m, l⟩ (g.skip m c) (g.skip m c') q q') :
    Beside M B ⟨m, l⟩ c c' (q.afterBlanks g.blank) (q'.afterBlanks g.blank) := by
  intro a a' ha
  have h := h a a' ha
  have happly : q.afterBlanks g.blank ⟨m, l⟩ c a = q ⟨m, l⟩ (g.skip m c) a := rfl
  have happly' : q'.afterBlanks g.blank ⟨m, l⟩ c' a' = q' ⟨m, l⟩ (g.skip m c') a' := rfl
  rw [happly, happly']
  generalize q ⟨m, l⟩ (g.skip m c) a = o at h
  generalize q' ⟨m, l⟩ (g.skip m c') a' = o' at h
  cases h with
  | fail ha => exact .fail ha
  | read ha hc hpast hpast' hns =>
    obtain ⟨b, hb⟩ := g.past_skip m c
    obtain ⟨w, hw⟩ := hpast
    obtain ⟨b', hb'⟩ := g.past_skip m c'
    obtain ⟨w', hw'⟩ := hpast'
    exact .read ha hc ⟨_, hb.trans hw⟩ ⟨_, hb'.trans hw'⟩ hns

theorem alt (hp : Beside M B s c c' p p')
    (hq : (∃ a, (p s c a).result = none) → Beside M B s c c' q q') :
    Beside M B s c c' (Reader.alt p q) (Reader.alt p' q') := by
  intro a a' ha
  have hp := hp a a' ha
  have hq := fun hres => hq ⟨a, hres⟩
  simp only [Reader.alt]
  generalize p s c a = o at hp hq
  generalize p' s c' a' = o' at hp
  cases hp with
  | fail ha => exact hq rfl _ _ ha
  | read ha hc hpast hpast' hns => exact .read ha hc hpast hpast' hns

theorem opt (hp : Beside M B s c c' p p') (hc : B c c') :
    Beside M B s c c' (Reader.opt p) (Reader.opt p') := by
  intro a a' ha
  have hp := hp a a' ha
  simp only [Reader.opt]
  generalize p s c a = o at hp
  generalize p' s c' a' = o' at hp
  cases hp with
  | fail ha => exact .read ha hc ⟨[], .refl c⟩ ⟨[], .refl c'⟩ .nil
  | read ha hc hpast hpast' hns => exact .read ha hc hpast hpast' hns

theorem notAhead (hp : Beside M B₁ ⟨m, l.negate⟩ c c' p p') (hc : B c c') :
    Beside M B ⟨m, l⟩ c c' (Reader.notAhead p) (Reader.notAhead p') := by
  intro a a' ha
  have hp := hp a a' ha
  simp only [Reader.notAhead]
  generalize p ⟨m, l.negate⟩ c a = o at hp
  generalize p' ⟨m, l.negate⟩ c' a' = o' at hp
  cases hp with
  | fail ha => exact .read ha hc ⟨[], .refl c⟩ ⟨[], .refl c'⟩ .nil
  | read ha => exact .fail ha

/-- Rules keep readings of their bodies beside each other, where what they remember and the nodes
they leave correspond. -/
theorem rule {kind : RuleKind} {r : R} (hp : Beside M B ⟨kind.innerMode m, l⟩ c c' p p')
    (hrecord : ∀ a a' e e' negative, M.attempts a a' → M.attempts e e' →
      M.attempts (a.record e r c.place negative) (a'.record e' r c'.place negative))
    (hnode : kind.outerMode m ≠ .atomic → ∀ w w' c₁ c₁' ns ns', Cursor.Past w c c₁ →
      Cursor.Past w' c' c₁' → B c₁ c₁' → List.Forall₂ M.node ns ns' →
      M.node ⟨r, .between c.place c₁.place, w, ns⟩ ⟨r, .between c'.place c₁'.place, w', ns'⟩) :
    Beside M B ⟨m, l⟩ c c' (Reader.rule kind r p) (Reader.rule kind r p') := by
  intro a a' ha
  have hp := hp a a' ha
  simp only [Reader.rule]
  generalize p ⟨kind.innerMode m, l⟩ c a = o at hp
  generalize p' ⟨kind.innerMode m, l⟩ c' a' = o' at hp
  cases hp with
  | fail ha₁ =>
    refine .fail ?_
    split
    · exact ha₁
    · exact hrecord _ _ _ _ _ ha₁ ha
  | @read c₁ c₁' ns ns' a₁ a₁' ha₁ hc hpast hpast' hns =>
    refine .read ?_ hc hpast hpast' ?_
    · split
      · exact ha₁
      · exact hrecord _ _ _ _ _ ha₁ ha
    · obtain ⟨w, hw⟩ := hpast
      obtain ⟨w', hw'⟩ := hpast'
      split
      next => exact .nil
      next hkind =>
        rw [Cursor.textUpTo_of_past hw, Cursor.textUpTo_of_past hw']
        exact .cons (hnode hkind w w' c₁ c₁' ns ns' hw hw' hc hns) .nil

theorem word {w : List Char} (hnone : w <+: c'.rest → w <+: c.rest)
    (hsome : ∀ k, c.rest = w ++ k →
      ∃ k', c'.rest = w ++ k' ∧ B ⟨c.place.advance w, k⟩ ⟨c'.place.advance w, k'⟩) :
    g.Beside M B s c c' (.expr (.word w)) := by
  intro a a' ha
  show Outcome.Beside M B c c' ⟨(Cursor.word? w c).map (·, []), a⟩
    ⟨(Cursor.word? w c').map (·, []), a'⟩
  cases h : Cursor.word? w c with
  | none =>
    cases h' : Cursor.word? w c' with
    | none => exact .fail ha
    | some c₁' =>
      obtain ⟨k, hk⟩ := hnone ⟨_, (Cursor.word?_eq_some_iff.mp h').rest.symm⟩
      have hpast : Cursor.Past w c ⟨c.place.advance w, k⟩ := ⟨hk.symm, rfl⟩
      rw [Cursor.word?_eq_some_iff.mpr hpast] at h
      cases h
  | some c₁ =>
    have hpast := Cursor.word?_eq_some_iff.mp h
    obtain ⟨k', hk', hB⟩ := hsome _ hpast.rest
    have hpast' : Cursor.Past w c' ⟨c'.place.advance w, k'⟩ := ⟨hk', rfl⟩
    rw [Cursor.word?_eq_some_iff.mpr hpast']
    obtain ⟨p₁, rest₁⟩ := c₁
    obtain rfl : p₁ = c.place.advance w := hpast.place
    exact .read ha hB ⟨w, hpast⟩ ⟨w, hpast'⟩ .nil

theorem one {cls : CharClass}
    (hnone : ∀ x k, c'.rest = x :: k → cls.holds x = true →
      ∃ y k', c.rest = y :: k' ∧ cls.holds y = true)
    (hsome : ∀ x k, c.rest = x :: k → cls.holds x = true → ∃ x' k', c'.rest = x' :: k' ∧
      cls.holds x' = true ∧ B ⟨c.place.after x, k⟩ ⟨c'.place.after x', k'⟩) :
    g.Beside M B s c c' (.expr (.one cls)) := by
  intro a a' ha
  show Outcome.Beside M B c c' ⟨(Cursor.one? cls.holds c).map (·, []), a⟩
    ⟨(Cursor.one? cls.holds c').map (·, []), a'⟩
  cases h : Cursor.one? cls.holds c with
  | none =>
    cases h' : Cursor.one? cls.holds c' with
    | none => exact .fail ha
    | some c₁' =>
      obtain ⟨x', hx', hpast'⟩ := Cursor.one?_eq_some_iff.mp h'
      obtain ⟨x, k, hk, hx⟩ := hnone x' _ hpast'.rest hx'
      have hpast : Cursor.Past [x] c ⟨c.place.advance [x], k⟩ := ⟨hk, rfl⟩
      rw [Cursor.one?_eq_some_iff.mpr ⟨x, hx, hpast⟩] at h
      cases h
  | some c₁ =>
    obtain ⟨x, hx, hpast⟩ := Cursor.one?_eq_some_iff.mp h
    obtain ⟨x', k', hk', hx', hB⟩ := hsome x _ hpast.rest hx
    have hpast' : Cursor.Past [x'] c' ⟨c'.place.after x', k'⟩ := ⟨hk', rfl⟩
    rw [Cursor.one?_eq_some_iff.mpr ⟨x', hx', hpast'⟩]
    obtain ⟨p₁, rest₁⟩ := c₁
    obtain rfl : p₁ = c.place.after x := hpast.place
    exact .read ha hB ⟨[x], hpast⟩ ⟨[x'], hpast'⟩ .nil

theorem finish (hrest : c.rest = [] ↔ c'.rest = []) (hc : B c c') :
    g.Beside M B s c c' (.expr .finish) := by
  intro a a' ha
  show Outcome.Beside M B c c' ⟨(if c.rest.isEmpty then some c else none).map (·, []), a⟩
    ⟨(if c'.rest.isEmpty then some c' else none).map (·, []), a'⟩
  simp only [List.isEmpty_iff, hrest]
  split
  · exact .read ha hc ⟨[], .refl c⟩ ⟨[], .refl c'⟩ .nil
  · exact .fail ha

theorem start (hplace : c.place.offset = 0 ↔ c'.place.offset = 0) (hc : B c c') :
    g.Beside M B s c c' (.expr .start) := by
  intro a a' ha
  show Outcome.Beside M B c c' ⟨(if c.place.offset = 0 then some c else none).map (·, []), a⟩
    ⟨(if c'.place.offset = 0 then some c' else none).map (·, []), a'⟩
  simp only [hplace]
  split
  · exact .read ha hc ⟨[], .refl c⟩ ⟨[], .refl c'⟩ .nil
  · exact .fail ha

end Reader.Beside

section Compound

variable {M : Matching R} {B B₁ : Cursor → Cursor → Prop} {s : Setting} {m : Mode} {l : Look}
  {c c' : Cursor} {p q : Expr R}

theorem Grammar.beside_alt (hp : g.Beside M B s c c' (.expr p))
    (hq : (∃ a, (g.run (.expr p) s c a).result = none) → g.Beside M B s c c' (.expr q)) :
    g.Beside M B s c c' (.expr (.alt p q)) :=
  .congr (fun _ => Grammar.run_alt) (fun _ => Grammar.run_alt) (.alt hp hq)

theorem Layering.beside_seq (L : Layering g) (hs : (Expr.seq p q).steady L.empty = true)
    (hp : g.Beside M B₁ ⟨m, l⟩ c c' (.expr p))
    (hq : ∀ c₁ c₁' ns a, (g.run (.expr p) ⟨m, l⟩ c a).result = some (c₁, ns) → B₁ c₁ c₁' →
      g.Beside M B ⟨m, l⟩ (g.skip m c₁) (g.skip m c₁') (.expr q)) :
    g.Beside M B ⟨m, l⟩ c c' (.expr (.seq p q)) :=
  .congr (fun _ => L.run_seq hs) (fun _ => L.run_seq hs)
    (.seq hp fun c₁ c₁' ns a hres hc₁ => .afterBlanks (hq c₁ c₁' ns a hres hc₁))

theorem Layering.beside_call (L : Layering g) {r : R}
    (hp : g.Beside M B ⟨(g.kind r).innerMode m, l⟩ c c' (.expr (g.body r)))
    (hrecord : ∀ a a' e e' negative, M.attempts a a' → M.attempts e e' →
      M.attempts (a.record e r c.place negative) (a'.record e' r c'.place negative))
    (hnode : (g.kind r).outerMode m ≠ .atomic → ∀ w w' c₁ c₁' ns ns', Cursor.Past w c c₁ →
      Cursor.Past w' c' c₁' → B c₁ c₁' → List.Forall₂ M.node ns ns' →
      M.node ⟨r, .between c.place c₁.place, w, ns⟩ ⟨r, .between c'.place c₁'.place, w', ns'⟩) :
    g.Beside M B ⟨m, l⟩ c c' (.expr (.call r)) :=
  .congr (fun _ => L.run_call r) (fun _ => L.run_call r) (.rule hp hrecord hnode)

end Compound

/-- Blanks keep cursors beside each other, where a blank before one stands before the other. -/
theorem Grammar.skip_beside {B : Cursor → Cursor → Prop}
    (hblank : ∀ p p' x k k', g.blank x = true → B ⟨p, x :: k⟩ ⟨p', k'⟩ →
      ∃ k₁, k' = x :: k₁ ∧ B ⟨p.after x, k⟩ ⟨p'.after x, k₁⟩)
    (hflush : ∀ c c', B c c' → g.Flush c.rest → g.Flush c'.rest) (m : Mode) (c c' : Cursor)
    (h : B c c') : B (g.skip m c) (g.skip m c') := by
  cases m with
  | compact => exact h
  | atomic => exact h
  | spaced =>
    obtain ⟨p, rest⟩ := c
    obtain ⟨p', rest'⟩ := c'
    induction rest generalizing p p' rest' with
    | nil =>
      have hrest : g.Flush rest' := hflush _ _ h nofun
      rw [skip_of_flush (k := []) nofun, skip_of_flush hrest]
      exact h
    | cons x rest ih =>
      by_cases hx : g.blank x = true
      · obtain ⟨rest₁, rfl, hnext⟩ := hblank p p' x rest rest' hx h
        have hstep : ∀ (q : Place) k, g.skip .spaced ⟨q, x :: k⟩ = g.skip .spaced ⟨q.after x, k⟩ :=
          fun q k => skip_blanks [x] q (by simp [hx])
        rw [hstep, hstep]
        exact ih _ _ _ hnext
      · have hrest : g.Flush (x :: rest) := fun y hy => by
          cases hy
          simpa using hx
        rw [skip_of_flush hrest, skip_of_flush (hflush _ _ h hrest)]
        exact h

/-! ### From atoms to the grammar -/

section Over

variable (atom : Expr R → Bool) (calls : R → Bool)

/-- Whether an expression is built of atoms and calls. -/
def Expr.over : Expr R → Bool
  | .word w => atom (.word w)
  | .one cls => atom (.one cls)
  | .start => atom .start
  | .finish => atom .finish
  | .call r => atom (.call r) || calls r
  | .seq p q => atom (.seq p q) || (p.over && q.over)
  | .alt p q => atom (.alt p q) || (p.over && q.over)
  | .opt p => atom (.opt p) || p.over
  | .many p => atom (.many p) || p.over
  | .notAhead p => atom (.notAhead p) || p.over

/-- Whether what is to be read is built of atoms and calls. -/
def Goal.over : Goal R → Bool
  | .expr e => e.over atom calls
  | .more e => e.over atom calls

end Over

/-- How the cursors of two readings are related where they start: further rounds start where the
rounds before them ended. -/
def Goal.relates (before after : Cursor → Cursor → Prop) : Goal R → Cursor → Cursor → Prop
  | .expr _ => before
  | .more _ => after

/-- What is needed for readings to stay beside each other that start at cursors related by `before`
and end at cursors related by `after`, in each mode: that the atoms do, that blanks lead back
from the second relation to the first, and that a rule does if its body does. The bodies of the
rules that may be called are built of atoms and such rules. -/
structure Alignment (g : Grammar R) (M : Matching R) (before after : Mode → Cursor → Cursor → Prop)
    where
  atom : Mode → Expr R → Bool
  calls : Mode → R → Bool
  stay : ∀ m c c', before m c c' → after m c c'
  skip : ∀ m c c', after m c c' → before m (g.skip m c) (g.skip m c')
  atoms : ∀ m e, atom m e = true → ∀ l c c', before m c c' →
    g.Beside M (after m) ⟨m, l⟩ c c' (.expr e)
  rules : ∀ m r, calls m r = true → ∀ l c c', before m c c' →
    (before ((g.kind r).innerMode m) c c' → g.Beside M (after ((g.kind r).innerMode m))
      ⟨(g.kind r).innerMode m, l⟩ c c' (.expr (g.body r))) →
    g.Beside M (after m) ⟨m, l⟩ c c' (.expr (.call r))
  bodies : ∀ m r, calls m r = true → (g.body r).over (atom ((g.kind r).innerMode m))
    (calls ((g.kind r).innerMode m)) = true

namespace Alignment

variable {M : Matching R} {before after : Mode → Cursor → Cursor → Prop}
  (S : Alignment g M before after) (L : Layering g)

/-- Readings of what is built of atoms stay beside each other. -/
theorem beside_of_derives {m : Mode} {t : Goal R} {c : Cursor}
    {x : Option (Cursor × List (Node R))} (h : Derives g m t c x) : ∀ {l : Look} {c' : Cursor},
    t.steady L.empty = true → t.over (S.atom m) (S.calls m) = true →
    t.relates (before m) (after m) c c' → g.Beside M (after m) ⟨m, l⟩ c c' t := by
  -- Along the first reading; the second one has the same shape by the equations of both.
  induction h with
  | word => exact fun _ ht hc => S.atoms _ _ ht _ _ _ hc
  | one => exact fun _ ht hc => S.atoms _ _ ht _ _ _ hc
  | start => exact fun _ ht hc => S.atoms _ _ ht _ _ _ hc
  | finish => exact fun _ ht hc => S.atoms _ _ ht _ _ _ hc
  | @call m r c x y _ _ ih =>
    intro l c' _ ht hc
    rcases Bool.or_eq_true_iff.mp ht with hatom | hr
    · exact S.atoms _ _ hatom _ _ _ hc
    · exact S.rules m r hr l c c' hc fun hinner => ih (L.steady r) (S.bodies m r hr) hinner
  | @seq m p q c c₁ before x y hp _ _ ihp ihq =>
    intro l c' hs ht hc
    rcases Bool.or_eq_true_iff.mp ht with hatom | ht
    · exact S.atoms _ _ hatom _ _ _ hc
    obtain ⟨hsp, hsq⟩ := Bool.and_eq_true_iff.mp hs
    obtain ⟨htp, htq⟩ := Bool.and_eq_true_iff.mp ht
    refine L.beside_seq hs (ihp hsp htp hc) fun c₂ c₂' ns a hres hc₂ => ?_
    cases (L.run_result hp hsp).symm.trans hres
    exact ihq hsq htq (S.skip m _ _ hc₂)
  | @seqFails m p q c hp ihp =>
    intro l c' hs ht hc
    rcases Bool.or_eq_true_iff.mp ht with hatom | ht
    · exact S.atoms _ _ hatom _ _ _ hc
    obtain ⟨hsp, hsq⟩ := Bool.and_eq_true_iff.mp hs
    have htp := (Bool.and_eq_true_iff.mp ht).1
    refine L.beside_seq hs (ihp hsp htp hc) fun c₂ c₂' ns a hres hc₂ => ?_
    cases (L.run_result hp hsp).symm.trans hres
  | @first m p q c x hp ihp =>
    intro l c' hs ht hc
    rcases Bool.or_eq_true_iff.mp ht with hatom | ht
    · exact S.atoms _ _ hatom _ _ _ hc
    obtain ⟨hsp, hsq⟩ := Bool.and_eq_true_iff.mp hs
    refine Grammar.beside_alt (ihp hsp (Bool.and_eq_true_iff.mp ht).1 hc) ?_
    rintro ⟨a, hres⟩
    cases (L.run_result hp hsp).symm.trans hres
  | second _ _ ihp ihq =>
    intro l c' hs ht hc
    rcases Bool.or_eq_true_iff.mp ht with hatom | ht
    · exact S.atoms _ _ hatom _ _ _ hc
    obtain ⟨hsp, hsq⟩ := Bool.and_eq_true_iff.mp hs
    obtain ⟨htp, htq⟩ := Bool.and_eq_true_iff.mp ht
    exact Grammar.beside_alt (ihp hsp htp hc) fun _ => ihq hsq htq hc
  | opt _ ihp | optNone _ ihp =>
    intro l c' hs ht hc
    rcases Bool.or_eq_true_iff.mp ht with hatom | ht
    · exact S.atoms _ _ hatom _ _ _ hc
    exact .congr (fun _ => Grammar.run_opt) (fun _ => Grammar.run_opt)
      (.opt (ihp hs ht hc) (S.stay _ _ _ hc))
  | @many m p c c₁ c₂ before after hp _ ihp ihmore =>
    intro l c' hs ht hc
    rcases Bool.or_eq_true_iff.mp ht with hatom | ht
    · exact S.atoms _ _ hatom _ _ _ hc
    have hsp := (Bool.and_eq_true_iff.mp hs).2
    refine .congr (fun _ => L.run_many hs) (fun _ => L.run_many hs)
      (.opt (.seq (ihp hsp ht hc) fun c₃ c₃' ns a hres hc₃ => ?_) (S.stay _ _ _ hc))
    cases (L.run_result hp hsp).symm.trans hres
    exact ihmore hs ht hc₃
  | @manyNone m p c hp ihp =>
    intro l c' hs ht hc
    rcases Bool.or_eq_true_iff.mp ht with hatom | ht
    · exact S.atoms _ _ hatom _ _ _ hc
    have hsp := (Bool.and_eq_true_iff.mp hs).2
    refine .congr (fun _ => L.run_many hs) (fun _ => L.run_many hs)
      (.opt (.seq (ihp hsp ht hc) fun c₃ c₃' ns a hres hc₃ => ?_) (S.stay _ _ _ hc))
    cases (L.run_result hp hsp).symm.trans hres
  | @more m p c c₁ c₂ before after hp _ ihp ihmore =>
    intro l c' hs ht hc
    have hsp := (Bool.and_eq_true_iff.mp hs).2
    refine .congr (fun _ => L.run_more hs) (fun _ => L.run_more hs)
      (.opt (.seq (.afterBlanks (ihp hsp ht (S.skip m _ _ hc))) fun c₃ c₃' ns a hres hc₃ => ?_) hc)
    cases (L.run_result hp hsp).symm.trans hres
    exact ihmore hs ht hc₃
  | @moreNone m p c hp ihp =>
    intro l c' hs ht hc
    have hsp := (Bool.and_eq_true_iff.mp hs).2
    refine .congr (fun _ => L.run_more hs) (fun _ => L.run_more hs)
      (.opt (.seq (.afterBlanks (ihp hsp ht (S.skip m _ _ hc))) fun c₃ c₃' ns a hres hc₃ => ?_) hc)
    cases (L.run_result hp hsp).symm.trans hres
  | notAhead _ ihp | notAheadFails _ ihp =>
    intro l c' hs ht hc
    rcases Bool.or_eq_true_iff.mp ht with hatom | ht
    · exact S.atoms _ _ hatom _ _ _ hc
    exact .congr (fun _ => Grammar.run_notAhead) (fun _ => Grammar.run_notAhead)
      (.notAhead (ihp hs ht hc) (S.stay _ _ _ hc))

theorem beside {m : Mode} {t : Goal R} {c c' : Cursor} {l : Look} (hs : t.steady L.empty = true)
    (ht : t.over (S.atom m) (S.calls m) = true) (hc : t.relates (before m) (after m) c c') :
    g.Beside M (after m) ⟨m, l⟩ c c' t :=
  S.beside_of_derives L (L.run_derives (l := l) (a := .none) hs) hs ht hc

end Alignment

/-- What is needed for readings from cursors that `B` relates to stay beside each other: that the
atoms do, that blanks and rules keep the relation, and that the bodies of the rules that may be
called are built of these. -/
structure Accord (g : Grammar R) (M : Matching R) (B : Cursor → Cursor → Prop) where
  atom : Mode → Expr R → Bool
  calls : R → Bool
  skip : ∀ m c c', B c c' → B (g.skip m c) (g.skip m c')
  record : ∀ r, calls r = true → ∀ c c', B c c' → ∀ a a' e e' negative, M.attempts a a' →
    M.attempts e e' → M.attempts (a.record e r c.place negative) (a'.record e' r c'.place negative)
  node : ∀ r m, calls r = true → (g.kind r).outerMode m ≠ .atomic → ∀ c c' w w' c₁ c₁' ns ns',
    B c c' → Cursor.Past w c c₁ → Cursor.Past w' c' c₁' → B c₁ c₁' → List.Forall₂ M.node ns ns' →
    M.node ⟨r, .between c.place c₁.place, w, ns⟩ ⟨r, .between c'.place c₁'.place, w', ns'⟩
  atoms : ∀ m e, atom m e = true → ∀ l c c', B c c' →
    g.Beside M B ⟨m, l⟩ c c' (.expr e)
  bodies : ∀ r m, calls r = true → (g.body r).over (atom ((g.kind r).innerMode m)) calls = true

namespace Accord

variable {M : Matching R} {B : Cursor → Cursor → Prop} (S : Accord g M B) (L : Layering g)

/-- The same relation everywhere. -/
def toAlignment : Alignment g M (fun _ => B) (fun _ => B) where
  atom := S.atom
  calls _ := S.calls
  stay _ _ _ := id
  skip := S.skip
  atoms := S.atoms
  rules m r hr _ c c' hc hbody := L.beside_call (hbody hc) (S.record r hr c c' hc)
    fun hkind w w' c₁ c₁' ns ns' hw hw' hc₁ hns =>
      S.node r m hr hkind c c' w w' c₁ c₁' ns ns' hc hw hw' hc₁ hns
  bodies m r := S.bodies r m

theorem beside {m : Mode} {t : Goal R} {c c' : Cursor} {l : Look} (hs : t.steady L.empty = true)
    (ht : t.over (S.atom m) S.calls = true) (hc : B c c') :
    g.Beside M B ⟨m, l⟩ c c' t := by
  refine (S.toAlignment L).beside L hs ht ?_
  cases t <;> exact hc

end Accord

/-! ### Expressions without rules -/

namespace Expr

/-- Whether an expression is a word, one character or an end of the text. -/
def isTerminal : Expr R → Bool
  | .word _ | .one _ | .start | .finish => true
  | _ => false

/-- Whether an expression calls no rule. -/
def isSilent (e : Expr R) : Bool := e.over isTerminal fun _ => false

end Expr

/-- A reading of an expression without rules, beside itself: the attempts stay, and no node is
left. -/
def Accord.silent (g : Grammar R) (a : Attempts R) :
    Accord g ⟨fun b b' => b = a ∧ b' = a, fun _ _ => False⟩ Eq where
  atom _ e := e.isTerminal
  calls _ := false
  skip _ _ _ h := congrArg _ h
  record _ h := nomatch h
  node _ _ h := nomatch h
  bodies _ _ h := nomatch h
  atoms m e he l c c' hc := by
    subst hc
    cases e with
    | word w => exact .word id fun k hk => ⟨k, hk, rfl⟩
    | one cls => exact .one (fun x k hk hx => ⟨x, k, hk, hx⟩) fun x k hk hx => ⟨x, k, hk, hx, rfl⟩
    | start => exact .start Iff.rfl rfl
    | finish => exact .finish Iff.rfl rfl
    | _ => cases he

namespace Layering

variable (L : Layering g) {M : Matching R} {B : Cursor → Cursor → Prop} {m : Mode} {l : Look}
  {c c' : Cursor} {e : Expr R} {a : Attempts R}

theorem run_silent {x : Option (Cursor × List (Node R))} (h : Derives g m (.expr e) c x)
    (hs : e.steady L.empty = true) (he : e.isSilent = true) :
    g.run (.expr e) ⟨m, l⟩ c a = ⟨x.map fun z => (z.1, []), a⟩ := by
  have hbeside := (Accord.silent g a).beside L (m := m) (c := c) (t := .expr e) (l := l) hs he
    rfl a a ⟨rfl, rfl⟩
  have hresult : (g.run (.expr e) ⟨m, l⟩ c a).result = x := L.run_result h hs
  generalize g.run (.expr e) ⟨m, l⟩ c a = o at hbeside hresult
  subst hresult
  cases hbeside with
  | fail ha =>
    obtain ⟨rfl, -⟩ := ha
    rfl
  | read ha _ _ _ hns =>
    obtain ⟨rfl, -⟩ := ha
    cases hns with
    | nil => rfl
    | cons h => exact h.elim

/-- An expression without rules keeps readings beside each other where its steps correspond. -/
theorem beside_silent {f : Cursor → Option Cursor}
    (h : ∀ c, Derives g m (.expr e) c ((f c).map (·, []))) (hs : e.steady L.empty = true)
    (he : e.isSilent = true) (hf : Option.Rel B (f c) (f c')) :
    g.Beside M B ⟨m, l⟩ c c' (.expr e) := by
  intro a a' ha
  have hpast := (h c).past
  have hpast' := (h c').past
  rw [L.run_silent (h c) hs he, L.run_silent (h c') hs he]
  generalize f c = x at hf hpast
  generalize f c' = x' at hf hpast'
  cases hf with
  | none => exact .fail ha
  | some hB => exact .read ha hB (hpast _ rfl) (hpast' _ rfl) .nil

/-- Where attempts do not matter, readings stand beside each other if what they derive does. -/
theorem beside_derived {t : Goal R} {x x' : Option (Cursor × List (Node R))}
    (hs : t.steady L.empty = true) (hM : ∀ a a', M.attempts a a') (h : Derives g m t c x)
    (h' : Derives g m t c' x')
    (hx : Option.Rel (fun y y' => B y.1 y'.1 ∧ List.Forall₂ M.node y.2 y'.2) x x') :
    g.Beside M B ⟨m, l⟩ c c' t := by
  intro a a' _
  have hresult : (g.run t ⟨m, l⟩ c a).result = x := L.run_result h hs
  have hresult' : (g.run t ⟨m, l⟩ c' a').result = x' := L.run_result h' hs
  have hpast := h.past
  have hpast' := h'.past
  generalize g.run t ⟨m, l⟩ c a = o at hresult
  generalize g.run t ⟨m, l⟩ c' a' = o' at hresult'
  obtain ⟨_, b⟩ := o
  obtain ⟨_, b'⟩ := o'
  subst hresult
  subst hresult'
  cases hx with
  | none => exact .fail (hM b b')
  | some hy => exact .read (hM b b') hy.1 (hpast _ rfl) (hpast' _ rfl) hy.2

end Layering

end Peg
end Pseudonym

/-
# Reading a given word

A word is read in front of a text when an expression, started at the word,
stops where the text begins and leaves nodes with some property. Blanks at
either end do not count in the spaced mode: the cursor may start and stop on
either side of them. In the other modes start and stop are exact.

The rules below compose such readings, one for each form of expression, and
likewise refusals, where an expression fails at a text.
-/
import Pseudonym.Proofs.Peg.Openings

namespace Pseudonym
namespace Peg

variable {R : Type} {g : Grammar R} {m l : Mode} {e p q : Expr R} {r : R}
  {b w v k : List Char} {P Q T : List (Node R) → Prop}

/-- No nodes are left. -/
def Silent (ns : List (Node R)) : Prop := ns = []

/-- One node is left, with this property. -/
def Single (P : Node R → Prop) (ns : List (Node R)) : Prop := ∃ n, ns = [n] ∧ P n

theorem Single.mono {P Q : Node R → Prop} {ns : List (Node R)} (h : Single P ns)
    (hP : ∀ n, P n → Q n) : Single Q ns := by
  obtain ⟨n, rfl, hn⟩ := h
  exact ⟨n, rfl, hP n hn⟩

/-- The expression reads `w` in front of `k` and leaves nodes with the property `P`. What comes
next is read in the mode `l`, so it does not matter which of its blanks have been skipped. -/
def Reads (g : Grammar R) (m l : Mode) (e : Expr R) (w k : List Char)
    (P : List (Node R) → Prop) : Prop :=
  ∀ s : Place, ∃ c ns, Derives g m (.expr e) (g.skip m ⟨s, w ++ k⟩) (some (c, ns)) ∧
    g.skip l c = g.skip l ⟨s.advance w, k⟩ ∧ P ns

/-- Further rounds of the expression read `w` in front of `k`. -/
def ReadsMore (g : Grammar R) (m : Mode) (e : Expr R) (w k : List Char)
    (P : List (Node R) → Prop) : Prop :=
  ∀ (s : Place) (c₀ : Cursor), g.skip m c₀ = g.skip m ⟨s, w ++ k⟩ →
    ∃ c ns, Derives g m (.more e) c₀ (some (c, ns)) ∧
      g.skip m c = g.skip m ⟨s.advance w, k⟩ ∧ P ns

/-- The expression fails in front of `k`. -/
def Refuses (g : Grammar R) (m : Mode) (e : Expr R) (k : List Char) : Prop :=
  ∀ s : Place, Derives g m (.expr e) (g.skip m ⟨s, k⟩) none

/-- A node that its rule left for a text. -/
structure Node.Spells (r : R) (w : List Char) (n : Node R) : Prop where
  rule : n.rule = r
  text : n.text = w

/-- A text does not start with a blank. -/
def Grammar.Flush (g : Grammar R) (k : List Char) : Prop := ∀ x ∈ k.head?, g.blank x = false

namespace Grammar

theorem skip_of_flush (hk : g.Flush k) (m : Mode) (s : Place) : g.skip m ⟨s, k⟩ = ⟨s, k⟩ := by
  cases m with
  | spaced => exact Cursor.skipWhile_append [] s k rfl hk
  | compact => rfl
  | atomic => rfl

theorem skip_eq (hk : m = .spaced → g.Flush k) (s : Place) : g.skip m ⟨s, k⟩ = ⟨s, k⟩ := by
  cases m with
  | spaced => exact skip_of_flush (hk rfl) .spaced s
  | compact => rfl
  | atomic => rfl

theorem skip_blanks : ∀ (b : List Char) (s : Place), b.all g.blank = true →
    g.skip .spaced ⟨s, b ++ k⟩ = g.skip .spaced ⟨s.advance b, k⟩
  | [], s, _ => rfl
  | x :: b, s, hb => by
    obtain ⟨hx, hb⟩ := Bool.and_eq_true_iff.mp hb
    have hstep : g.skip .spaced ⟨s, x :: (b ++ k)⟩ = g.skip .spaced ⟨s.after x, b ++ k⟩ := by
      simp [skip, Reader.skipBlanks, Cursor.skipWhile, Cursor.skipWhile.go, hx]
    rw [List.cons_append, hstep, skip_blanks b (s.after x) hb, Place.advance_cons]

theorem skip_skip (m : Mode) (c : Cursor) : g.skip m (g.skip m c) = g.skip m c := by
  cases m with
  | spaced =>
    obtain ⟨s, rest⟩ := c
    induction rest generalizing s with
    | nil => rfl
    | cons x rest ih =>
      by_cases hx : g.blank x = true
      · have hstep : g.skip .spaced ⟨s, x :: rest⟩ = g.skip .spaced ⟨s.after x, rest⟩ :=
          skip_blanks [x] s (by simp [hx])
        rw [hstep, ih]
      · have hflush : g.Flush (x :: rest) := fun y hy => by
          cases hy
          simpa using hx
        simp only [skip_of_flush hflush]
  | compact => rfl
  | atomic => rfl

end Grammar

/-! ### Readings -/

namespace Reads

theorem mono (h : Reads g m l e w k P) (hP : ∀ ns, P ns → Q ns) : Reads g m l e w k Q := by
  intro s
  obtain ⟨c, ns, hd, hc, hns⟩ := h s
  exact ⟨c, ns, hd, hc, hP ns hns⟩

theorem mono_single {P Q : Node R → Prop} (h : Reads g m l e w k (Single P))
    (hP : ∀ n, P n → Q n) : Reads g m l e w k (Single Q) :=
  h.mono fun _ hns => hns.mono hP

/-- A reading that stops exactly suits whatever comes next. -/
theorem relax (h : Reads g m .atomic e w k P) (l : Mode) : Reads g m l e w k P := by
  intro s
  obtain ⟨c, ns, hd, hc, hns⟩ := h s
  obtain rfl : c = ⟨s.advance w, k⟩ := hc
  exact ⟨_, ns, hd, rfl, hns⟩

theorem blanks (h : Reads g .spaced l e w k P) (hb : b.all g.blank = true) :
    Reads g .spaced l e (b ++ w) k P := by
  intro s
  obtain ⟨c, ns, hd, hc, hns⟩ := h (s.advance b)
  rw [← Place.advance_append] at hc
  rw [← Grammar.skip_blanks b s hb, ← List.append_assoc] at hd
  exact ⟨c, ns, hd, hc, hns⟩

theorem word (hw : m = .spaced → g.Flush (w ++ k)) : Reads g m l (.word w) w k Silent := by
  intro s
  rw [Grammar.skip_eq hw]
  have hword := Cursor.word?_eq_some_iff.mpr (Cursor.past_mk s w k)
  exact ⟨_, [], .word (by rw [hword]; rfl), rfl, rfl⟩

theorem one {cls : CharClass} {x : Char} (hx : cls.holds x = true)
    (hflush : m = .spaced → g.Flush ([x] ++ k)) : Reads g m l (.one cls) [x] k Silent := by
  intro s
  have hone := Cursor.one?_eq_some_iff.mpr ⟨x, hx, Cursor.past_mk s [x] k⟩
  rw [Grammar.skip_eq hflush]
  exact ⟨_, [], .one (by rw [hone]; rfl), rfl, rfl⟩

theorem seq (hp : Reads g m m p w (v ++ k) P) (hq : Reads g m l q v k Q)
    (hT : ∀ before after, P before → Q after → T (before ++ after)) :
    Reads g m l (.seq p q) (w ++ v) k T := by
  intro s
  obtain ⟨c₁, before, hd₁, hc₁, hbefore⟩ := hp s
  obtain ⟨c₂, after, hd₂, hc₂, hafter⟩ := hq (s.advance w)
  rw [← hc₁] at hd₂
  rw [← Place.advance_append] at hc₂
  rw [List.append_assoc]
  exact ⟨c₂, before ++ after, .seq hd₁ hd₂ rfl, hc₂, hT before after hbefore hafter⟩

theorem then_nothing (hp : Reads g m m p w k P) (hq : Reads g m l q [] k Silent) :
    Reads g m l (.seq p q) w k P := by
  intro s
  obtain ⟨c₁, before, hd₁, hc₁, hbefore⟩ := hp s
  obtain ⟨c₂, after, hd₂, hc₂, rfl⟩ := hq (s.advance w)
  rw [List.nil_append, ← hc₁] at hd₂
  exact ⟨c₂, before ++ [], .seq hd₁ hd₂ rfl, hc₂, by rwa [List.append_nil]⟩

theorem then_silent (hp : Reads g m m p w (v ++ k) P) (hq : Reads g m l q v k Silent) :
    Reads g m l (.seq p q) (w ++ v) k P :=
  hp.seq hq fun before after hbefore hafter => by
    obtain rfl : after = [] := hafter
    rwa [List.append_nil]

theorem silent_then (hp : Reads g m m p w (v ++ k) Silent) (hq : Reads g m l q v k Q) :
    Reads g m l (.seq p q) (w ++ v) k Q :=
  hp.seq hq fun before after hbefore hafter => by
    obtain rfl : before = [] := hbefore
    exact hafter

theorem first (hp : Reads g m l p w k P) : Reads g m l (.alt p q) w k P := by
  intro s
  obtain ⟨c, ns, hd, hc, hns⟩ := hp s
  exact ⟨c, ns, .first hd, hc, hns⟩

theorem second (hp : Refuses g m p (w ++ k)) (hq : Reads g m l q w k P) :
    Reads g m l (.alt p q) w k P := by
  intro s
  obtain ⟨c, ns, hd, hc, hns⟩ := hq s
  exact ⟨c, ns, .second (hp s) hd, hc, hns⟩

theorem opt (hp : Reads g m l p w k P) : Reads g m l (.opt p) w k P := by
  intro s
  obtain ⟨c, ns, hd, hc, hns⟩ := hp s
  exact ⟨c, ns, .opt hd, hc, hns⟩

theorem opt_none (hp : Refuses g m p k) : Reads g m m (.opt p) [] k Silent :=
  fun s => ⟨_, [], .optNone (hp s), g.skip_skip m _, rfl⟩

theorem notAhead (hp : Refuses g m p k) : Reads g m m (.notAhead p) [] k Silent :=
  fun s => ⟨_, [], .notAhead (hp s), g.skip_skip m _, rfl⟩

theorem call (h : Reads g ((g.kind r).innerMode m) l (g.body r) w k P)
    (hw : m = .spaced ∨ (g.kind r).innerMode m = .spaced → g.Flush (w ++ k))
    (hr : (g.kind r).outerMode m ≠ .atomic) :
    Reads g m l (.call r) w k (Single fun n => n.rule = r ∧ P n.children) := by
  intro s
  obtain ⟨c, ns, hd, hc, hns⟩ := h s
  rw [Grammar.skip_eq fun h => hw (.inr h)] at hd
  rw [Grammar.skip_eq fun h => hw (.inl h)]
  refine ⟨c, _, .call hd rfl, hc, ?_⟩
  simp only [if_neg hr]
  exact ⟨_, rfl, rfl, hns⟩

/-- A rule whose reading stops exactly has the word as its text. -/
theorem leaf (h : Reads g ((g.kind r).innerMode m) .atomic (g.body r) w k P)
    (hw : m = .spaced ∨ (g.kind r).innerMode m = .spaced → g.Flush (w ++ k))
    (hr : (g.kind r).outerMode m ≠ .atomic) :
    Reads g m l (.call r) w k (Single fun n => n.rule = r ∧ n.text = w ∧ P n.children) := by
  intro s
  obtain ⟨c, ns, hd, hc, hns⟩ := h s
  obtain rfl : c = ⟨s.advance w, k⟩ := hc
  rw [Grammar.skip_eq fun h => hw (.inr h)] at hd
  rw [Grammar.skip_eq fun h => hw (.inl h)]
  refine ⟨_, _, .call hd rfl, rfl, ?_⟩
  simp only [if_neg hr, Cursor.textUpTo_of_past (Cursor.past_mk s w k)]
  exact ⟨_, rfl, rfl, rfl, hns⟩

theorem token (h : Reads g ((g.kind r).innerMode m) .atomic (g.body r) w k P)
    (hw : m = .spaced ∨ (g.kind r).innerMode m = .spaced → g.Flush (w ++ k))
    (hr : (g.kind r).outerMode m ≠ .atomic) :
    Reads g m l (.call r) w k (Single (Node.Spells r w)) :=
  (leaf h hw hr).mono fun _ ⟨n, hns, hrule, htext, _⟩ => ⟨n, hns, hrule, htext⟩

/-- In the atomic mode a rule leaves nothing. -/
theorem hidden (h : Reads g ((g.kind r).innerMode m) l (g.body r) w k P)
    (hw : m = .spaced ∨ (g.kind r).innerMode m = .spaced → g.Flush (w ++ k))
    (hr : (g.kind r).outerMode m = .atomic) : Reads g m l (.call r) w k Silent := by
  intro s
  obtain ⟨c, ns, hd, hc, -⟩ := h s
  rw [Grammar.skip_eq fun h => hw (.inr h)] at hd
  rw [Grammar.skip_eq fun h => hw (.inl h)]
  refine ⟨c, _, .call hd rfl, hc, ?_⟩
  simp only [if_pos hr]
  rfl

end Reads

namespace ReadsMore

theorem none (hp : Refuses g m p k) : ReadsMore g m p [] k Silent := by
  intro s c₀ hc₀
  have hd := hp s
  rw [show (⟨s, k⟩ : Cursor) = ⟨s, [] ++ k⟩ from rfl, ← hc₀] at hd
  exact ⟨c₀, [], .moreNone hd, hc₀, rfl⟩

theorem more (hp : Reads g m m p w (v ++ k) P) (hmore : ReadsMore g m p v k Q)
    (hT : ∀ before after, P before → Q after → T (before ++ after)) :
    ReadsMore g m p (w ++ v) k T := by
  intro s c₀ hc₀
  obtain ⟨c₁, before, hd₁, hc₁, hbefore⟩ := hp s
  rw [List.append_assoc] at hc₀
  rw [← hc₀] at hd₁
  obtain ⟨c₂, after, hd₂, hc₂, hafter⟩ := hmore (s.advance w) c₁ hc₁
  rw [← Place.advance_append] at hc₂
  exact ⟨c₂, before ++ after, .more hd₁ hd₂, hc₂, hT before after hbefore hafter⟩

theorem mono (h : ReadsMore g m e w k P) (hP : ∀ ns, P ns → Q ns) : ReadsMore g m e w k Q := by
  intro s c₀ hc₀
  obtain ⟨c, ns, hd, hc, hns⟩ := h s c₀ hc₀
  exact ⟨c, ns, hd, hc, hP ns hns⟩

/-- What further rounds read, a repetition reads. -/
theorem many (h : ReadsMore g m e w k P) : Reads g m m (.many e) w k P := by
  intro s
  obtain ⟨c, ns, hd, hc, hns⟩ := h s (g.skip m ⟨s, w ++ k⟩) (g.skip_skip m _)
  refine ⟨c, ns, ?_, hc, hns⟩
  cases hd with
  | more hp hmore =>
    rw [Grammar.skip_skip] at hp
    exact .many hp hmore
  | moreNone hp =>
    rw [Grammar.skip_skip] at hp
    exact .manyNone hp

/-- Rounds that leave nothing, one for each word. -/
theorem silent (hk : Refuses g m e k) : ∀ us : List (List Char),
    (∀ before u after, us = before ++ u :: after →
      Reads g m m e u (after.flatten ++ k) Silent) → ReadsMore g m e us.flatten k Silent
  | [], _ => .none hk
  | u :: us, hus => by
    have ih := silent hk us fun before u' after hus' =>
      hus (u :: before) u' after (by rw [hus', List.cons_append])
    refine .more (hus [] u us rfl) ih fun before after hbefore hafter => ?_
    obtain rfl : before = [] := hbefore
    exact hafter

end ReadsMore

/-! ### Refusals -/

namespace Refuses

theorem of_opening (S : Survey g) (hs : e.steady S.empty = true)
    (he : e.mayBeEmpty S.empty = false) (hk : g.Flush k)
    (hopen : ∀ y ∈ k.head?, S.mayOpen e y = false) : Refuses g m e k := by
  intro s
  rw [Grammar.skip_of_flush hk]
  exact S.refuses hs he fun y hy => ⟨hk y hy, hopen y hy⟩

theorem blanks (h : Refuses g .spaced e k) (hb : b.all g.blank = true) :
    Refuses g .spaced e (b ++ k) := by
  intro s
  rw [Grammar.skip_blanks b s hb]
  exact h _

theorem alt (hp : Refuses g m p k) (hq : Refuses g m q k) : Refuses g m (.alt p q) k :=
  fun s => .second (hp s) (hq s)

theorem seq_first (hp : Refuses g m p k) : Refuses g m (.seq p q) k := fun s => .seqFails (hp s)

theorem seq_second (hp : Reads g m m p w k P) (hq : Refuses g m q k) :
    Refuses g m (.seq p q) (w ++ k) := by
  intro s
  obtain ⟨c, ns, hd, hc, -⟩ := hp s
  have hd' := hq (s.advance w)
  rw [← hc] at hd'
  exact .seq hd hd' rfl

theorem call (h : Refuses g ((g.kind r).innerMode m) (g.body r) k)
    (hk : m = .spaced ∨ (g.kind r).innerMode m = .spaced → g.Flush k) :
    Refuses g m (.call r) k := by
  intro s
  have hd := h s
  rw [Grammar.skip_eq fun h => hk (.inr h)] at hd
  rw [Grammar.skip_eq fun h => hk (.inl h)]
  exact .call hd rfl

theorem notAhead (h : Reads g m l p w k P) : Refuses g m (.notAhead p) (w ++ k) := by
  intro s
  obtain ⟨c, ns, hd, -, -⟩ := h s
  exact .notAheadFails hd

theorem word (hw : ¬ w <+: k) (hk : m = .spaced → g.Flush k) : Refuses g m (.word w) k := by
  intro s
  rw [Grammar.skip_eq hk]
  cases h : Cursor.word? w ⟨s, k⟩ with
  | none => exact .word (by rw [h]; rfl)
  | some c => exact absurd ⟨c.rest, (Cursor.word?_eq_some_iff.mp h).rest.symm⟩ hw

end Refuses

end Peg
end Pseudonym

/-
# Derivations

The meaning of parsing expressions without any bound: at a cursor, in a mode,
an expression reads up to another cursor and leaves some nodes, or it fails.
An expression does at most one of these things there (`Derives.unique`), and
reading only moves ahead (`Derives.past`).
-/
import Pseudonym.Peg.Reading
import Pseudonym.Proofs.Text.Cursor

namespace Pseudonym
namespace Peg

variable {R : Type}

namespace Grammar

/-- The cursor behind the blanks that the mode skips. -/
def skip (g : Grammar R) (m : Mode) (c : Cursor) : Cursor :=
  Reader.skipBlanks g.blank ⟨m, .consuming⟩ c

/-- What a rule leaves, called at a cursor, for what its body has read. -/
def leave (g : Grammar R) (r : R) (m : Mode) (c : Cursor) (x : Cursor × List (Node R)) :
    Cursor × List (Node R) :=
  (x.1, if (g.kind r).outerMode m = .atomic then []
    else [⟨r, .between c.place x.1.place, c.textUpTo x.1, x.2⟩])

end Grammar

variable {g : Grammar R}

/-- At a cursor, what is to be read gives this result. -/
inductive Derives (g : Grammar R) : Mode → Goal R → Cursor → Option (Cursor × List (Node R)) → Prop
  | word {m w c x} (hx : (Cursor.word? w c).map (·, []) = x) : Derives g m (.expr (.word w)) c x
  | one {m cls c x} (hx : (Cursor.one? cls.holds c).map (·, []) = x) :
    Derives g m (.expr (.one cls)) c x
  | start {m c x} (hx : (if c.place.offset = 0 then some (c, []) else none) = x) :
    Derives g m (.expr .start) c x
  | finish {m c x} (hx : (if c.rest.isEmpty then some (c, []) else none) = x) :
    Derives g m (.expr .finish) c x
  | call {m r c x y} (h : Derives g ((g.kind r).innerMode m) (.expr (g.body r)) c y)
    (hx : y.map (g.leave r m c) = x) : Derives g m (.expr (.call r)) c x
  | seq {m p q c c₁ before x y} (hp : Derives g m (.expr p) c (some (c₁, before)))
    (hq : Derives g m (.expr q) (g.skip m c₁) y)
    (hx : y.map (fun z => (z.1, before ++ z.2)) = x) : Derives g m (.expr (.seq p q)) c x
  | seqFails {m p q c} (hp : Derives g m (.expr p) c none) : Derives g m (.expr (.seq p q)) c none
  | first {m p q c x} (hp : Derives g m (.expr p) c (some x)) :
    Derives g m (.expr (.alt p q)) c (some x)
  | second {m p q c x} (hp : Derives g m (.expr p) c none) (hq : Derives g m (.expr q) c x) :
    Derives g m (.expr (.alt p q)) c x
  | opt {m p c x} (hp : Derives g m (.expr p) c (some x)) : Derives g m (.expr (.opt p)) c (some x)
  | optNone {m p c} (hp : Derives g m (.expr p) c none) :
    Derives g m (.expr (.opt p)) c (some (c, []))
  | many {m p c c₁ c₂ before after} (hp : Derives g m (.expr p) c (some (c₁, before)))
    (hmore : Derives g m (.more p) c₁ (some (c₂, after))) :
    Derives g m (.expr (.many p)) c (some (c₂, before ++ after))
  | manyNone {m p c} (hp : Derives g m (.expr p) c none) :
    Derives g m (.expr (.many p)) c (some (c, []))
  | more {m p c c₁ c₂ before after} (hp : Derives g m (.expr p) (g.skip m c) (some (c₁, before)))
    (hmore : Derives g m (.more p) c₁ (some (c₂, after))) :
    Derives g m (.more p) c (some (c₂, before ++ after))
  | moreNone {m p c} (hp : Derives g m (.expr p) (g.skip m c) none) :
    Derives g m (.more p) c (some (c, []))
  | notAhead {m p c} (hp : Derives g m (.expr p) c none) :
    Derives g m (.expr (.notAhead p)) c (some (c, []))
  | notAheadFails {m p c x} (hp : Derives g m (.expr p) c (some x)) :
    Derives g m (.expr (.notAhead p)) c none

namespace Derives

variable {m : Mode} {t : Goal R} {c c' : Cursor} {x y : Option (Cursor × List (Node R))}
  {ns : List (Node R)}

/-- Reading has one result at most. -/
theorem unique (hx : Derives g m t c x) (hy : Derives g m t c y) : x = y := by
  induction hx generalizing y with
  | word hx => cases hy with | word hy => exact hx.symm.trans hy
  | one hx => cases hy with | one hy => exact hx.symm.trans hy
  | start hx => cases hy with | start hy => exact hx.symm.trans hy
  | finish hx => cases hy with | finish hy => exact hx.symm.trans hy
  | call _ hx ih =>
    cases hy with
    | call h hy => rw [← hx, ← hy, ih h]
  | seq _ _ hx ihp ihq =>
    cases hy with
    | seq hp hq hy =>
      cases ihp hp
      rw [← hx, ← hy, ihq hq]
    | seqFails hp => cases ihp hp
  | seqFails _ ihp =>
    cases hy with
    | seq hp => cases ihp hp
    | seqFails => rfl
  | first _ ihp =>
    cases hy with
    | first hp => exact ihp hp
    | second hp => cases ihp hp
  | second _ _ ihp ihq =>
    cases hy with
    | first hp => cases ihp hp
    | second _ hq => exact ihq hq
  | opt _ ihp =>
    cases hy with
    | opt hp => exact ihp hp
    | optNone hp => cases ihp hp
  | optNone _ ihp =>
    cases hy with
    | opt hp => cases ihp hp
    | optNone => rfl
  | many _ _ ihp ihmore =>
    cases hy with
    | many hp hmore =>
      cases ihp hp
      cases ihmore hmore
      rfl
    | manyNone hp => cases ihp hp
  | manyNone _ ihp =>
    cases hy with
    | many hp => cases ihp hp
    | manyNone => rfl
  | more _ _ ihp ihmore =>
    cases hy with
    | more hp hmore =>
      cases ihp hp
      cases ihmore hmore
      rfl
    | moreNone hp => cases ihp hp
  | moreNone _ ihp =>
    cases hy with
    | more hp => cases ihp hp
    | moreNone => rfl
  | notAhead _ ihp =>
    cases hy with
    | notAhead => rfl
    | notAheadFails hp => cases ihp hp
  | notAheadFails _ ihp =>
    cases hy with
    | notAhead hp => cases ihp hp
    | notAheadFails => rfl

end Derives

theorem Grammar.past_skip (g : Grammar R) (m : Mode) (c : Cursor) :
    ∃ b, Cursor.Past b c (g.skip m c) := by
  cases m with
  | spaced =>
    obtain ⟨b, -, h⟩ := Cursor.past_skipWhile g.blank c.rest c.place
    exact ⟨b, h⟩
  | compact => exact ⟨[], .refl c⟩
  | atomic => exact ⟨[], .refl c⟩

/-- Reading moves ahead. -/
theorem Derives.past {m : Mode} {t : Goal R} {c : Cursor} {x : Option (Cursor × List (Node R))}
    (h : Derives g m t c x) : ∀ z ∈ x, ∃ w, Cursor.Past w c z.1 := by
  induction h with
  | word hx =>
    rintro z rfl
    obtain ⟨c', hc', rfl⟩ := Option.map_eq_some_iff.mp hx
    exact ⟨_, Cursor.word?_eq_some_iff.mp hc'⟩
  | one hx =>
    rintro z rfl
    obtain ⟨c', hc', rfl⟩ := Option.map_eq_some_iff.mp hx
    obtain ⟨x, -, hpast⟩ := Cursor.one?_eq_some_iff.mp hc'
    exact ⟨[x], hpast⟩
  | start hx =>
    rintro z rfl
    split at hx <;> cases hx
    exact ⟨[], .refl _⟩
  | finish hx =>
    rintro z rfl
    split at hx <;> cases hx
    exact ⟨[], .refl _⟩
  | call _ hx ih =>
    rintro z rfl
    obtain ⟨z', rfl, rfl⟩ := Option.map_eq_some_iff.mp hx
    exact ih z' rfl
  | seq _ _ hx ihp ihq =>
    rintro z rfl
    obtain ⟨z', rfl, rfl⟩ := Option.map_eq_some_iff.mp hx
    obtain ⟨w, hw⟩ := ihp _ rfl
    obtain ⟨b, hb⟩ := g.past_skip _ _
    obtain ⟨v, hv⟩ := ihq z' rfl
    exact ⟨_, (hw.trans hb).trans hv⟩
  | seqFails => rintro z ⟨⟩
  | first _ ihp => exact ihp
  | second _ _ _ ihq => exact ihq
  | opt _ ihp => exact ihp
  | optNone =>
    rintro z ⟨⟩
    exact ⟨[], .refl _⟩
  | many _ _ ihp ihmore =>
    rintro z ⟨⟩
    obtain ⟨w, hw⟩ := ihp _ rfl
    obtain ⟨v, hv⟩ := ihmore _ rfl
    exact ⟨_, hw.trans hv⟩
  | manyNone =>
    rintro z ⟨⟩
    exact ⟨[], .refl _⟩
  | more _ _ ihp ihmore =>
    rintro z ⟨⟩
    obtain ⟨b, hb⟩ := g.past_skip _ _
    obtain ⟨w, hw⟩ := ihp _ rfl
    obtain ⟨v, hv⟩ := ihmore _ rfl
    exact ⟨_, (hb.trans hw).trans hv⟩
  | moreNone =>
    rintro z ⟨⟩
    exact ⟨[], .refl _⟩
  | notAhead =>
    rintro z ⟨⟩
    exact ⟨[], .refl _⟩
  | notAheadFails => rintro z ⟨⟩

/-! ### What stands behind a success -/

namespace Derives

variable {m : Mode} {p q : Expr R} {c c' : Cursor} {ns : List (Node R)}

theorem of_word {w : List Char} (h : Derives g m (.expr (.word w)) c (some (c', ns))) :
    Cursor.Past w c c' ∧ ns = [] := by
  cases h with
  | word hx =>
    obtain ⟨c₁, hc₁, heq⟩ := Option.map_eq_some_iff.mp hx
    cases heq
    exact ⟨Cursor.word?_eq_some_iff.mp hc₁, rfl⟩

theorem of_one {cls : CharClass} (h : Derives g m (.expr (.one cls)) c (some (c', ns))) :
    ∃ x, cls.holds x = true ∧ Cursor.Past [x] c c' ∧ ns = [] := by
  cases h with
  | one hx =>
    obtain ⟨c₁, hc₁, heq⟩ := Option.map_eq_some_iff.mp hx
    cases heq
    obtain ⟨x, hx, hpast⟩ := Cursor.one?_eq_some_iff.mp hc₁
    exact ⟨x, hx, hpast, rfl⟩

theorem of_start (h : Derives g m (.expr .start) c (some (c', ns))) : c' = c ∧ ns = [] := by
  cases h with
  | start hx =>
    split at hx <;> cases hx
    exact ⟨rfl, rfl⟩

theorem of_call {r : R} (h : Derives g m (.expr (.call r)) c (some (c', ns))) :
    ∃ children, Derives g ((g.kind r).innerMode m) (.expr (g.body r)) c (some (c', children)) ∧
      ns = (g.leave r m c (c', children)).2 := by
  cases h with
  | call hbody hx =>
    obtain ⟨⟨c₁, children⟩, rfl, heq⟩ := Option.map_eq_some_iff.mp hx
    cases heq
    exact ⟨children, hbody, rfl⟩

/-- A rule that leaves a node leaves the text it read. -/
theorem of_call_node {r : R} (h : Derives g m (.expr (.call r)) c (some (c', ns)))
    (hr : (g.kind r).outerMode m ≠ .atomic) :
    ∃ children, Derives g ((g.kind r).innerMode m) (.expr (g.body r)) c (some (c', children)) ∧
      ns = [⟨r, .between c.place c'.place, c.textUpTo c', children⟩] := by
  obtain ⟨children, hbody, rfl⟩ := h.of_call
  refine ⟨children, hbody, ?_⟩
  simp only [Grammar.leave, if_neg hr]

theorem call_of_past {r : R} {children : List (Node R)} {w : List Char}
    (h : Derives g ((g.kind r).innerMode m) (.expr (g.body r)) c (some (c', children)))
    (hr : (g.kind r).outerMode m ≠ .atomic) (hw : Cursor.Past w c c') :
    Derives g m (.expr (.call r)) c
      (some (c', [⟨r, .between c.place c'.place, w, children⟩])) := by
  refine .call h ?_
  simp only [Option.map_some, Grammar.leave, if_neg hr, Cursor.textUpTo_of_past hw]

theorem of_seq (h : Derives g m (.expr (.seq p q)) c (some (c', ns))) :
    ∃ c₁ before after, Derives g m (.expr p) c (some (c₁, before)) ∧
      Derives g m (.expr q) (g.skip m c₁) (some (c', after)) ∧ ns = before ++ after := by
  cases h with
  | seq hp hq hx =>
    obtain ⟨⟨c₂, after⟩, rfl, heq⟩ := Option.map_eq_some_iff.mp hx
    cases heq
    exact ⟨_, _, after, hp, hq, rfl⟩

/-- The second of two expressions is read from a later cursor. -/
theorem of_seq_last (h : Derives g m (.expr (.seq p q)) c (some (c', ns))) :
    ∃ c₁ ns₁, c₁.rest <:+ c.rest ∧ Derives g m (.expr q) c₁ (some (c', ns₁)) := by
  obtain ⟨c₁, before, after, hp, hq, -⟩ := h.of_seq
  obtain ⟨w, hw⟩ := hp.past _ rfl
  obtain ⟨b, hb⟩ := g.past_skip m c₁
  exact ⟨_, after, (hw.trans hb).suffix, hq⟩

theorem of_alt (h : Derives g m (.expr (.alt p q)) c (some (c', ns))) :
    Derives g m (.expr p) c (some (c', ns)) ∨
      Derives g m (.expr p) c none ∧ Derives g m (.expr q) c (some (c', ns)) := by
  cases h with
  | first hp => exact .inl hp
  | second hp hq => exact .inr ⟨hp, hq⟩

theorem of_opt (h : Derives g m (.expr (.opt p)) c (some (c', ns))) :
    Derives g m (.expr p) c (some (c', ns)) ∨ c' = c ∧ ns = [] := by
  cases h with
  | opt hp => exact .inl hp
  | optNone => exact .inr ⟨rfl, rfl⟩

theorem of_notAhead (h : Derives g m (.expr (.notAhead p)) c (some (c', ns))) :
    Derives g m (.expr p) c none ∧ c' = c ∧ ns = [] := by
  cases h with
  | notAhead hp => exact ⟨hp, rfl, rfl⟩

theorem of_word_none {w : List Char} (h : Derives g m (.expr (.word w)) c none) :
    ¬ w <+: c.rest := by
  rintro ⟨k, hk⟩
  obtain ⟨s, rest⟩ := c
  obtain rfl : w ++ k = rest := hk
  cases h with
  | word hx =>
    rw [Cursor.word?_eq_some_iff.mpr (Cursor.past_mk s w k)] at hx
    cases hx

theorem of_alt_none (h : Derives g m (.expr (.alt p q)) c none) :
    Derives g m (.expr p) c none ∧ Derives g m (.expr q) c none := by
  cases h with
  | second hp hq => exact ⟨hp, hq⟩

theorem of_more (h : Derives g m (.more p) c (some (c', ns))) (I : Cursor → List (Node R) → Prop)
    (hstart : I c [])
    (hround : ∀ c₁ ns₁ c₂ ns₂, I c₁ ns₁ → Derives g m (.expr p) (g.skip m c₁) (some (c₂, ns₂)) →
      I c₂ (ns₁ ++ ns₂)) : I c' ns := by
  generalize ht : Goal.more p = t at h
  generalize hx : some (c', ns) = x at h
  induction h generalizing I ns with
  | more hp _ _ ihmore =>
    cases ht
    cases hx
    -- The rounds that follow start from the nodes of this one.
    refine ihmore (fun c ns => I c (_ ++ ns)) ?_ ?_ rfl rfl
    · rw [List.append_nil]
      exact hround _ _ _ _ hstart hp
    · intro c₁ ns₁ c₂ ns₂ h₁ hp₁
      rw [← List.append_assoc]
      exact hround _ _ _ _ h₁ hp₁
  | moreNone =>
    cases ht
    cases hx
    exact hstart
  | _ => cases ht

theorem more_stops (h : Derives g m (.more p) c (some (c', ns))) :
    Derives g m (.expr p) (g.skip m c') none := by
  generalize ht : Goal.more p = t at h
  generalize hx : some (c', ns) = x at h
  induction h generalizing ns with
  | more _ _ _ ihmore =>
    cases ht
    cases hx
    exact ihmore rfl rfl
  | moreNone hp =>
    cases ht
    cases hx
    exact hp
  | _ => cases ht

/-- A repetition stops where a further round fails. -/
theorem many_stops (h : Derives g m (.expr (.many p)) c (some (c', ns))) :
    ∃ c₀, (c₀ = c' ∨ c₀ = g.skip m c') ∧ Derives g m (.expr p) c₀ none := by
  cases h with
  | many _ hmore => exact ⟨_, .inr rfl, hmore.more_stops⟩
  | manyNone hp => exact ⟨_, .inl rfl, hp⟩

/-- A repetition keeps what every round keeps. -/
theorem of_many (h : Derives g m (.expr (.many p)) c (some (c', ns)))
    (I : Cursor → List (Node R) → Prop) (hstart : I c [])
    (hround : ∀ c₁ ns₁ c₀ c₂ ns₂, I c₁ ns₁ → c₀ = c₁ ∨ c₀ = g.skip m c₁ →
      Derives g m (.expr p) c₀ (some (c₂, ns₂)) → I c₂ (ns₁ ++ ns₂)) : I c' ns := by
  cases h with
  | many hp hmore =>
    refine hmore.of_more (fun c ns => I c (_ ++ ns)) ?_ ?_
    · rw [List.append_nil]
      exact hround _ _ _ _ _ hstart (.inl rfl) hp
    · intro c₁ ns₁ c₂ ns₂ h₁ hp₁
      rw [← List.append_assoc]
      exact hround _ _ _ _ _ h₁ (.inr rfl) hp₁
  | manyNone => exact hstart

end Derives

end Peg
end Pseudonym

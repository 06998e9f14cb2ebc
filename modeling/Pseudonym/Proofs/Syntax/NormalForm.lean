/-
# Normal forms that stay

What a schema is written as is a schema again, and after a second round the
text does not change any more. In the first round a comment without text that
stands by itself leaves a gap: an empty line in a block, or an empty section
between declarations. In the second round gaps are closed, so the text gets
shorter, and nothing else changes. So the first round is the last one exactly
if the schema has no gap.

Key definitions: `Schema.hasGap`, `Tidies`.
-/
import Mathlib.Algebra.Order.BigOperators.Group.List
import Mathlib.Algebra.Order.Group.Nat
import Pseudonym.Proofs.Obfuscate.Stable
import Pseudonym.Schema.Normal

namespace Pseudonym

/-! ### Gaps -/

/-- Whether a line of a model is a comment without text. -/
def ModelMember.isBlank : ModelMember → Bool
  | .comment c => c.isEmpty
  | .field _ => false
  | .blockAttribute _ => false

@[inherit_doc ModelMember.isBlank]
def EnumMember.isBlank : EnumMember → Bool
  | .comment c => c.isEmpty
  | .value _ => false
  | .blockAttribute _ => false

@[inherit_doc ModelMember.isBlank]
def ConfigMember.isBlank : ConfigMember → Bool
  | .comment c => c.isEmpty
  | .property _ => false

/-- Whether a comment without text stands by itself in a block, or a block of comments has no
others. -/
def Declaration.hasGap : Declaration → Bool
  | .config b => b.members.any (·.isBlank)
  | .model m => m.members.any (·.isBlank)
  | .enum e => e.members.any (·.isBlank)
  | .comments b => b.comments.all (·.isEmpty)

/-- Whether a schema has a gap where it is written. -/
def Schema.hasGap (s : Schema) : Bool := s.declarations.any (·.hasGap)

/-! ### Closing gaps -/

section Tidying

variable {α : Type} {keep : α → Option α} {text : α → String} {gap : α → Bool} {l : List α}

/-- Tidying up drops or shortens what has a gap, and leaves no gap. What has none is written as
before. -/
structure Tidies (keep : α → Option α) (text : α → String) (gap : α → Bool) : Prop where
  shorter : ∀ a, gap a = true → ∀ b, keep a = some b → (text b).length < (text a).length
  same : ∀ a, gap a = false → ∃ b, keep a = some b ∧ text b = text a
  settled : ∀ a b, keep a = some b → gap b = false

namespace Tidies

/-- For single lines: what has a gap is dropped, and all else stays. -/
theorem of_lines (h : ∀ a, (gap a = true ∧ keep a = none) ∨
    (gap a = false ∧ ∃ b, keep a = some b ∧ text b = text a ∧ gap b = false)) :
    Tidies keep text gap where
  shorter a hgap b hb := by
    rcases h a with ⟨-, hnone⟩ | ⟨hfull, -⟩
    · rw [hnone] at hb
      cases hb
    · rw [hgap] at hfull
      cases hfull
  same a hgap := by
    rcases h a with ⟨hblank, -⟩ | ⟨-, b, hb, hsame, -⟩
    · rw [hgap] at hblank
      cases hblank
    · exact ⟨b, hb, hsame⟩
  settled a b hb := by
    rcases h a with ⟨-, hnone⟩ | ⟨-, c, hc, -, hsettled⟩
    · rw [hnone] at hb
      cases hb
    · rw [hc] at hb
      cases hb
      exact hsettled

variable (h : Tidies keep text gap)

include h

/-- Where something has a gap the texts get shorter, even if each text that is dropped is empty:
with every text `extra` characters go. -/
theorem sum_lt {extra : Nat} (hextra : 0 < extra) (hgap : l.any gap = true) :
    ((l.filterMap keep).map fun a => (text a).length + extra).sum <
      (l.map fun a => (text a).length + extra).sum := by
  have hlt : ∀ a, gap a = true →
      (keep a).elim 0 (fun b => (text b).length + extra) < (text a).length + extra := by
    intro a ha
    cases hkeep : keep a with
    | none =>
      show 0 < _
      omega
    | some b =>
      have hshort := h.shorter a ha b hkeep
      show (text b).length + extra < _
      omega
  rw [sum_filterMap]
  apply List.sum_lt_sum
  · intro a _
    by_cases ha : gap a = true
    · exact (hlt a ha).le
    · obtain ⟨b, hb, hsame⟩ := h.same a (Bool.eq_false_iff.mpr ha)
      rw [hb, Option.elim_some, hsame]
  · obtain ⟨a, ha, hgap⟩ := List.any_eq_true.mp hgap
    exact ⟨a, ha, hlt a hgap⟩

/-- Without gaps, all texts stay. -/
theorem map_filterMap (hgap : l.any gap = false) : (l.filterMap keep).map text = l.map text := by
  induction l with
  | nil => rfl
  | cons a l ih =>
    rw [List.any_cons, Bool.or_eq_false_iff] at hgap
    obtain ⟨b, hb, hsame⟩ := h.same a hgap.1
    rw [List.filterMap_cons_some hb, List.map_cons, List.map_cons, hsame, ih hgap.2]

theorem any_filterMap (l : List α) : (l.filterMap keep).any gap = false := by
  rw [List.any_eq_false]
  intro b hb
  obtain ⟨a, -, hkeep⟩ := List.mem_filterMap.mp hb
  rw [h.settled a b hkeep]
  exact Bool.false_ne_true

end Tidies

end Tidying

/-! ### Lines -/

theorem Comment.trailing_atEnd (c : Option Comment) :
    Comment.trailing (c.map (·.atEnd)) = Comment.trailing c := by
  cases c with
  | none => rfl
  | some c =>
    by_cases h : c.isEmpty = true
    · have hatEnd : c.atEnd.isEmpty = true := by
        rw [Comment.atEnd, if_pos h]
        exact h
      rw [Option.map_some, Comment.trailing, Comment.trailing, if_pos h, if_pos hatEnd]
    · rw [Option.map_some, Comment.atEnd, if_neg h]

theorem ModelMember.tidies : Tidies ModelMember.tidied? ModelMember.line ModelMember.isBlank := by
  apply Tidies.of_lines
  intro member
  cases member with
  | field f =>
    exact .inr ⟨rfl, _, rfl, by simp only [line, Field.line, Comment.trailing_atEnd], rfl⟩
  | blockAttribute a =>
    exact .inr ⟨rfl, _, rfl, by simp only [line, BlockAttribute.line, Comment.trailing_atEnd], rfl⟩
  | comment c => cases h : c.isEmpty <;> simp [isBlank, tidied?, h]

theorem EnumMember.tidies : Tidies EnumMember.tidied? EnumMember.line EnumMember.isBlank := by
  apply Tidies.of_lines
  intro member
  cases member with
  | value v =>
    exact .inr ⟨rfl, _, rfl, by simp only [line, EnumValue.line, Comment.trailing_atEnd], rfl⟩
  | blockAttribute a =>
    exact .inr ⟨rfl, _, rfl, by simp only [line, BlockAttribute.line, Comment.trailing_atEnd], rfl⟩
  | comment c => cases h : c.isEmpty <;> simp [isBlank, tidied?, h]

theorem ConfigMember.tidies :
    Tidies ConfigMember.tidied? ConfigMember.line ConfigMember.isBlank := by
  apply Tidies.of_lines
  intro member
  cases member with
  | property p =>
    exact .inr ⟨rfl, _, rfl, by simp only [line, Property.line, Comment.trailing_atEnd], rfl⟩
  | comment c => cases h : c.isEmpty <;> simp [isBlank, tidied?, h]

/-! ### Declarations -/

/-- With every line of a block goes the character that ends it. -/
theorem length_renderBlock (keyword name : String) (lines : List String) :
    (renderBlock keyword name lines).length =
      (renderBlock keyword name []).length + (lines.map fun line => line.length + 1).sum := by
  have hlines : (String.join (lines.map (· ++ "\n"))).length =
      (lines.map fun line => line.length + 1).sum := by
    induction lines with
    | nil => rfl
    | cons line lines ih =>
      have hend : "\n".length = 1 := rfl
      rw [List.map_cons, String.join_cons, String.length_append, String.length_append, ih, hend,
        List.map_cons, List.sum_cons]
  have hnone : (String.join (([] : List String).map (· ++ "\n"))).length = 0 := rfl
  simp only [renderBlock, String.length_append, hlines, hnone]
  omega

/-- A block with a blank line gets shorter. -/
theorem Tidies.renderBlock_lt {α : Type} {keep : α → Option α} {line : α → String} {gap : α → Bool}
    (h : Tidies keep line gap) (keyword name : String) {l : List α} (hgap : l.any gap = true) :
    (renderBlock keyword name ((l.filterMap keep).map line)).length <
      (renderBlock keyword name (l.map line)).length := by
  have hsum := h.sum_lt Nat.one_pos hgap
  rw [length_renderBlock, length_renderBlock keyword name (l.map line), List.map_map, List.map_map]
  exact Nat.add_lt_add_left hsum _

theorem Declaration.tidies :
    Tidies Declaration.tidied? Declaration.render Declaration.hasGap where
  shorter d hgap kept hkept := by
    cases d with
    | config b => cases hkept; exact ConfigMember.tidies.renderBlock_lt _ _ hgap
    | model m => cases hkept; exact ModelMember.tidies.renderBlock_lt _ _ hgap
    | enum e => cases hkept; exact EnumMember.tidies.renderBlock_lt _ _ hgap
    | comments b =>
      -- A block without a comment that has a text is dropped.
      have hnone : b.comments.filter (!·.isEmpty) = [] := by simpa [hasGap] using hgap
      simp [tidied?, hnone] at hkept
  same d hgap := by
    cases d with
    | config b =>
      exact ⟨_, rfl, congrArg (renderBlock _ _) (ConfigMember.tidies.map_filterMap hgap)⟩
    | model m => exact ⟨_, rfl, congrArg (renderBlock _ _) (ModelMember.tidies.map_filterMap hgap)⟩
    | enum e => exact ⟨_, rfl, congrArg (renderBlock _ _) (EnumMember.tidies.map_filterMap hgap)⟩
    | comments b =>
      have hsome : b.comments.filter (!·.isEmpty) ≠ [] := by simpa [hasGap] using hgap
      refine ⟨.comments { b with comments := b.comments.filter (!·.isEmpty) }, ?_, ?_⟩
      · simp [tidied?, hsome]
      · simp [render, CommentBlock.render]
  settled d kept hkept := by
    cases d with
    | config b => cases hkept; exact ConfigMember.tidies.any_filterMap _
    | model m => cases hkept; exact ModelMember.tidies.any_filterMap _
    | enum e => cases hkept; exact EnumMember.tidies.any_filterMap _
    | comments b =>
      have hsome : b.comments.filter (!·.isEmpty) ≠ [] := by
        intro hnone
        simp [tidied?, hnone] at hkept
      simp only [tidied?, List.isEmpty_iff, if_neg hsome] at hkept
      cases hkept
      obtain ⟨c, hc⟩ := List.exists_mem_of_ne_nil _ hsome
      have hfull := (List.mem_filter.mp hc).2
      rw [hasGap, List.all_eq_false]
      exact ⟨c, hc, by simpa using hfull⟩

/-! ### Schemas -/

namespace Schema

theorem length_render (s : Schema) :
    s.render.length = (s.declarations.map fun d => d.render.length + 2).sum - 1 := by
  have hfurther : ∀ ds : List Declaration,
      (furtherDeclarations (·.render.toList) ds).length =
        (ds.map fun d => d.render.length + 2).sum := by
    intro ds
    induction ds with
    | nil => rfl
    | cons d ds ih =>
      rw [furtherDeclarations, List.map_cons, List.sum_cons]
      simp only [List.length_append, List.length_cons, List.length_nil, String.length_toList, ih]
      omega
  rw [← String.length_toList, toList_render]
  cases s.declarations with
  | nil => rfl
  | cons d ds =>
    rw [writtenDeclarations, List.map_cons, List.sum_cons]
    simp only [List.length_append, List.length_cons, List.length_nil, String.length_toList, hfurther]
    omega

theorem render_congr {s t : Schema}
    (h : s.declarations.map (·.render) = t.declarations.map (·.render)) : s.render = t.render := by
  have hempty : s.declarations.isEmpty = t.declarations.isEmpty := by
    rw [← List.isEmpty_map (f := (·.render)), h, List.isEmpty_map]
  rw [render, render, h, hempty]

/-- Tidying up changes the text of a schema exactly if there is a gap to close. -/
theorem render_tidied_eq_iff (s : Schema) : s.tidied.render = s.render ↔ s.hasGap = false := by
  constructor
  · intro hsame
    by_contra hgap
    rw [Bool.not_eq_false] at hgap
    have hlt : (s.tidied.declarations.map fun d => d.render.length + 2).sum <
        (s.declarations.map fun d => d.render.length + 2).sum :=
      Declaration.tidies.sum_lt Nat.two_pos hgap
    have hlength : s.tidied.render.length = s.render.length := by rw [hsame]
    rw [length_render, length_render] at hlength
    obtain ⟨d, hd, -⟩ := List.any_eq_true.mp hgap
    have hpos : d.render.length + 2 ≤ (s.declarations.map fun d => d.render.length + 2).sum :=
      List.single_le_sum (fun _ _ => Nat.zero_le _) _ (List.mem_map_of_mem hd)
    omega
  · intro hgap
    exact render_congr (Declaration.tidies.map_filterMap hgap)

theorem hasGap_tidied (s : Schema) : s.tidied.hasGap = false :=
  Declaration.tidies.any_filterMap s.declarations

/-- Spans have nothing to do with gaps. -/
theorem hasGap_unplaced (s : Schema) : s.unplaced.hasGap = s.hasGap := by
  have hany : ∀ {α : Type} {f : α → α} {p : α → Bool}, (∀ a, p (f a) = p a) →
      ∀ l : List α, (l.map f).any p = l.any p := by
    intro α f p h l
    rw [List.any_map]
    exact congrArg l.any (funext h)
  refine hany (fun d => ?_) s.declarations
  cases d with
  | config b => exact hany (fun member => by cases member <;> rfl) b.members
  | model m => exact hany (fun member => by cases member <;> rfl) m.members
  | enum e => exact hany (fun member => by cases member <;> rfl) e.members
  | comments b => exact List.all_map

end Schema

/-! ### Rounds -/

theorem normalize_of_parse {text : String} {s : Schema} (h : Schema.parse text = .ok s) :
    normalize text = .ok s.render := by
  rw [normalize, h]
  rfl

/-- The next round: what a well-spelled schema is written as is read again, without gaps, and is
written as what is kept of the schema. -/
theorem Schema.exists_reread {s : Schema} (h : s.WellSpelled) :
    ∃ s', Schema.parse s.render = .ok s' ∧ s'.WellSpelled ∧ s'.hasGap = false ∧
      s'.render = s.tidied.render := by
  obtain ⟨s', hs', hunplaced⟩ := parse_render_of_wellSpelled h
  refine ⟨s', hs', wellSpelled_of_parse hs', ?_, ?_⟩
  · rw [← hasGap_unplaced, hunplaced, hasGap_unplaced, hasGap_tidied]
  · rw [← render_unplaced, hunplaced, render_unplaced]

/-- **Normal forms settle.** What a schema is written as can be read, and written a second time it
stays as it is from then on. The first text stays already if and only if the schema has no gap:
no comment without text that stands by itself in a block, and no block of such comments. -/
theorem normalize_settles {text : String} {s : Schema} (h : Schema.parse text = .ok s) :
    ∃ t₁ t₂, normalize text = .ok t₁ ∧ normalize t₁ = .ok t₂ ∧ normalize t₂ = .ok t₂ ∧
      (t₂ = t₁ ↔ s.hasGap = false) := by
  obtain ⟨s₁, hs₁, hspelled₁, hgap₁, hrender₁⟩ :=
    Schema.exists_reread (Schema.wellSpelled_of_parse h)
  obtain ⟨s₂, hs₂, -, -, hrender₂⟩ := Schema.exists_reread hspelled₁
  have hthird : s₂.render = s₁.render := by
    rw [hrender₂, Schema.render_tidied_eq_iff]
    exact hgap₁
  refine ⟨s.render, s₁.render, normalize_of_parse h, normalize_of_parse hs₁, ?_, ?_⟩
  · rw [normalize_of_parse hs₂, hthird]
  · rw [hrender₁]
    exact s.render_tidied_eq_iff

/-- A text with comments that have no text: in a block, at the end of a line, and as a block of
their own, of which nothing but an empty line is left. -/
def gapped : String := "//\n///\n\nmodel A \x7b\n  //\n  id Int ///\n\x7d"

theorem normalize_settles_gapped : ∃ t₁ t₂, normalize gapped = .ok t₁ ∧ normalize t₁ = .ok t₂ ∧
    normalize t₂ = .ok t₂ ∧ t₂ ≠ t₁ := by
  have hgap : (Schema.parse gapped).toOption.any (·.hasGap) = true := by decide +kernel
  cases h : Schema.parse gapped with
  | error e =>
    rw [h] at hgap
    cases hgap
  | ok s =>
    rw [h] at hgap
    obtain ⟨t₁, t₂, h₁, h₂, h₃, hiff⟩ := normalize_settles h
    refine ⟨t₁, t₂, h₁, h₂, h₃, fun hsame => ?_⟩
    exact Bool.false_ne_true ((hiff.mp hsame).symm.trans hgap)

end Pseudonym

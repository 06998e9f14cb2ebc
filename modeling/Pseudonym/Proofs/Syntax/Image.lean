/-
# The schemas that some text is read as

Every schema that can be read is read from some text: its exact spelling, with
comments that have no text in their places, and with an empty line between two
blocks of comments. What is read is readable in turn (`Schema.readable_of_parse`),
and spelling does not depend on spans. So the readable schemas are, up to
spans, exactly those that are read.

Key definitions: `Declaration.word`, `Schema.word`.
-/
import Pseudonym.Proofs.Syntax.RoundTrip

namespace Pseudonym

open Peg

/-! ### Spelling without spans -/

section Lists

variable {α : Type} {P : α → Prop} {unplaced : α → α}

theorem forall_mem_map_unplaced (h : ∀ x, P (unplaced x) ↔ P x) (xs : List α) :
    (∀ y ∈ xs.map unplaced, P y) ↔ ∀ x ∈ xs, P x := by
  simp [h]

theorem forall_mem_option_unplaced (h : ∀ x, P (unplaced x) ↔ P x) (x? : Option α) :
    (∀ y ∈ x?.map unplaced, P y) ↔ ∀ x ∈ x?, P x := by
  cases x? <;> simp [h]

end Lists

mutual

theorem Value.wellSpelled_mapSpan (f : Span → Span) (v : Value) :
    (v.mapSpan f).WellSpelled ↔ v.WellSpelled := by
  cases v with
  | call name args =>
    simp only [Value.mapSpan, Value.WellSpelled, Argument.wellSpelledEach_mapSpan f args]
  | array items =>
    simp only [Value.mapSpan, Value.WellSpelled, Value.wellSpelledEach_mapSpan f items]
  | string | int | number | boolean | path => exact Iff.rfl

theorem Value.wellSpelledEach_mapSpan (f : Span → Span) (items : List Value) :
    Value.WellSpelledEach (Value.mapSpanEach f items) ↔ Value.WellSpelledEach items := by
  cases items with
  | nil => exact Iff.rfl
  | cons value rest =>
    simp only [Value.mapSpanEach, Value.WellSpelledEach, Value.wellSpelled_mapSpan f value,
      Value.wellSpelledEach_mapSpan f rest]

theorem Argument.wellSpelledEach_mapSpan (f : Span → Span) (args : List Argument) :
    Argument.WellSpelledEach (Argument.mapSpanEach f args) ↔ Argument.WellSpelledEach args := by
  cases args with
  | nil => exact Iff.rfl
  | cons arg rest =>
    obtain ⟨name, value, span⟩ := arg
    have hname : (∀ i ∈ name.map (·.mapSpan f), isName i.name.toList = true) ↔
        ∀ i ∈ name, isName i.name.toList = true := by
      simp [Ident.mapSpan]
    simp only [Argument.mapSpanEach, Argument.WellSpelledEach, hname,
      Value.wellSpelled_mapSpan f value, Argument.wellSpelledEach_mapSpan f rest]

end

theorem Value.wellSpelled_unplaced (v : Value) : v.unplaced.WellSpelled ↔ v.WellSpelled :=
  v.wellSpelled_mapSpan _

theorem Attribute.wellSpelled_unplaced (a : Attribute) : a.unplaced.WellSpelled ↔ a.WellSpelled :=
  and_congr Iff.rfl (Argument.wellSpelledEach_mapSpan _ a.args)

theorem FieldType.wellSpelled_unplaced (t : FieldType) : t.unplaced.WellSpelled ↔ t.WellSpelled := by
  cases t <;> exact Iff.rfl

theorem Comment.wellSpelled_unplaced (c : Comment) : c.unplaced.WellSpelled ↔ c.WellSpelled := Iff.rfl

theorem Field.wellSpelled_unplaced (f : Field) : f.unplaced.WellSpelled ↔ f.WellSpelled := by
  have hattributes := forall_mem_map_unplaced Attribute.wellSpelled_unplaced f.attributes
  have hcomment := forall_mem_option_unplaced Comment.wellSpelled_unplaced f.comment
  have htype := FieldType.wellSpelled_unplaced f.type
  exact ⟨fun h => ⟨h.name, htype.mp h.type, hattributes.mp h.attributes, hcomment.mp h.comment⟩,
    fun h => ⟨h.name, htype.mpr h.type, hattributes.mpr h.attributes, hcomment.mpr h.comment⟩⟩

theorem BlockAttribute.wellSpelled_unplaced (a : BlockAttribute) :
    a.unplaced.WellSpelled ↔ a.WellSpelled := by
  have hattr := Attribute.wellSpelled_unplaced a.attr
  have hcomment := forall_mem_option_unplaced Comment.wellSpelled_unplaced a.comment
  exact ⟨fun h => ⟨hattr.mp h.attr, hcomment.mp h.comment⟩,
    fun h => ⟨hattr.mpr h.attr, hcomment.mpr h.comment⟩⟩

theorem EnumValue.wellSpelled_unplaced (v : EnumValue) : v.unplaced.WellSpelled ↔ v.WellSpelled := by
  have hattributes := forall_mem_map_unplaced Attribute.wellSpelled_unplaced v.attributes
  have hcomment := forall_mem_option_unplaced Comment.wellSpelled_unplaced v.comment
  exact ⟨fun h => ⟨h.name, hattributes.mp h.attributes, hcomment.mp h.comment⟩,
    fun h => ⟨h.name, hattributes.mpr h.attributes, hcomment.mpr h.comment⟩⟩

theorem Property.wellSpelled_unplaced (p : Property) : p.unplaced.WellSpelled ↔ p.WellSpelled := by
  have hvalue := Value.wellSpelled_unplaced p.value
  have hcomment := forall_mem_option_unplaced Comment.wellSpelled_unplaced p.comment
  exact ⟨fun h => ⟨h.name, hvalue.mp h.value, hcomment.mp h.comment⟩,
    fun h => ⟨h.name, hvalue.mpr h.value, hcomment.mpr h.comment⟩⟩

theorem ModelMember.wellSpelled_unplaced (member : ModelMember) :
    member.unplaced.WellSpelled ↔ member.WellSpelled := by
  cases member with
  | field f => exact f.wellSpelled_unplaced
  | blockAttribute a => exact a.wellSpelled_unplaced
  | comment c => exact c.wellSpelled_unplaced

theorem EnumMember.wellSpelled_unplaced (member : EnumMember) :
    member.unplaced.WellSpelled ↔ member.WellSpelled := by
  cases member with
  | value v => exact v.wellSpelled_unplaced
  | blockAttribute a => exact a.wellSpelled_unplaced
  | comment c => exact c.wellSpelled_unplaced

theorem ConfigMember.wellSpelled_unplaced (member : ConfigMember) :
    member.unplaced.WellSpelled ↔ member.WellSpelled := by
  cases member with
  | property p => exact p.wellSpelled_unplaced
  | comment c => exact c.wellSpelled_unplaced

theorem Declaration.wellSpelled_unplaced (d : Declaration) :
    d.unplaced.WellSpelled ↔ d.WellSpelled := by
  cases d with
  | config b =>
    exact and_congr Iff.rfl (forall_mem_map_unplaced ConfigMember.wellSpelled_unplaced b.members)
  | model m =>
    exact and_congr Iff.rfl (forall_mem_map_unplaced ModelMember.wellSpelled_unplaced m.members)
  | enum e =>
    exact and_congr Iff.rfl (forall_mem_map_unplaced EnumMember.wellSpelled_unplaced e.members)
  | comments b => exact forall_mem_map_unplaced Comment.wellSpelled_unplaced b.comments

theorem Declaration.readable_unplaced (d : Declaration) : d.unplaced.Readable ↔ d.Readable := by
  refine and_congr d.wellSpelled_unplaced ?_
  cases d with
  | config | model | enum => simp [Declaration.unplaced]
  | comments b => simp [Declaration.unplaced]

/-- Whether a schema can be read does not depend on its spans. -/
theorem Schema.readable_unplaced (s : Schema) : s.unplaced.Readable ↔ s.Readable :=
  forall_mem_map_unplaced Declaration.readable_unplaced s.declarations

/-! ### Exact spellings -/

/-- How a declaration is spelled, with all its comments. -/
def Declaration.word : Declaration → List Char
  | .config b =>
    b.kind.word.toList ++ blockTail b.name.name (b.members.map fun x => [' ', ' '] ++ x.word)
  | .model m => "model".toList ++ blockTail m.name.name (m.members.map fun x => [' ', ' '] ++ x.word)
  | .enum e => "enum".toList ++ blockTail e.name.name (e.members.map fun x => [' ', ' '] ++ x.word)
  | .comments b => ['\n'].intercalate (b.comments.map (·.render.toList))

/-- A declaration that can be read is read as it is spelled. -/
theorem Declaration.reads_word {d : Declaration} (h : d.Readable) :
    DeclarationReads d.word (some d) := by
  refine .inr ⟨d, rfl, fun k hk => ?_⟩
  obtain ⟨hspelled, hcomments⟩ := h
  cases d with
  | config b =>
    have hread := (BlockSort.config b.kind).reads b.span hspelled.1
      (fun x hx => (ConfigMember.wordReads x (hspelled.2 x hx)).line rfl) ('\n' :: k)
    rwa [List.filterMap_some] at hread
  | model m =>
    have hread := BlockSort.model.reads m.span hspelled.1
      (fun x hx => (ModelMember.wordReads x (hspelled.2 x hx)).line rfl) ('\n' :: k)
    rwa [List.filterMap_some] at hread
  | enum e =>
    have hread := BlockSort.enum.reads e.span hspelled.1
      (fun x hx => (EnumMember.wordReads x (hspelled.2 x hx)).line rfl) ('\n' :: k)
    rwa [List.filterMap_some] at hread
  | comments b =>
    obtain ⟨comments, span⟩ := b
    cases comments with
    | nil => exact absurd rfl (hcomments _ rfl)
    | cons c cs => exact reads_declaration_of_comments hspelled span hk

/-- How a schema is spelled, with an empty line between declarations. -/
def Schema.word (s : Schema) : String :=
  .ofList (writtenDeclarations Declaration.word s.declarations)

/-- A schema that can be read is read as it is spelled. -/
theorem Schema.parse_word {s : Schema} (h : s.Readable) :
    ∃ s', Schema.parse s.word = .ok s' ∧ s'.unplaced = s.unplaced := by
  have hread := reads_declarations fun d hd => Declaration.reads_word (h d hd)
  rw [List.filterMap_some] at hread
  refine Schema.parse_of_reads ?_
  rw [Schema.word, String.toList_ofList]
  exact hread

/-- **The schemas that are read.** A schema is read from some text, up to spans, if and only if all
its words are words of the grammar and each of its blocks of comments has a comment. Values may be
nested, and members may stand, in any way. -/
theorem Schema.exists_parse_iff (s : Schema) :
    (∃ text s', Schema.parse text = .ok s' ∧ s'.unplaced = s.unplaced) ↔
      s.WellSpelled ∧ ∀ b, .comments b ∈ s.declarations → b.comments ≠ [] := by
  have hreadable : s.Readable ↔ s.WellSpelled ∧
      ∀ b, .comments b ∈ s.declarations → b.comments ≠ [] :=
    ⟨fun h => ⟨fun d hd => (h d hd).1, fun b hb => (h _ hb).2 b rfl⟩,
      fun h d hd => ⟨h.1 d hd, fun b hb => h.2 b (hb ▸ hd)⟩⟩
  rw [← hreadable]
  constructor
  · rintro ⟨text, s', hs', hunplaced⟩
    have hread := (Schema.readable_unplaced s').mpr (Schema.readable_of_parse hs')
    rw [hunplaced] at hread
    exact (Schema.readable_unplaced s).mp hread
  · intro h
    obtain ⟨s', hs', hunplaced⟩ := Schema.parse_word h
    exact ⟨s.word, s', hs', hunplaced⟩

end Pseudonym

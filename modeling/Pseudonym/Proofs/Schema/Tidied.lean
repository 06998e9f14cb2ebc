/-
# Schemas up to places and empty comments

What a schema keeps when it is written and read again: everything but the
spans and the comments without text. An empty comment is dropped where it
stands by itself, in a block or outside of all, and so is a block of comments
that has no other. At the end of a line an empty comment stays, as one for
readers of the source.
-/
import Pseudonym.Schema.Basic

namespace Pseudonym

/-! ### Other spans -/

/-- The name with another span. -/
def Ident.mapSpan (f : Span → Span) (i : Ident) : Ident := { i with span := f i.span }

/-- The comment with another span. -/
def Comment.mapSpan (f : Span → Span) (c : Comment) : Comment := { c with span := f c.span }

mutual

/-- The value with other spans. -/
def Value.mapSpan (f : Span → Span) : Value → Value
  | .string text => .string text
  | .int n => .int n
  | .number digits => .number digits
  | .boolean truth => .boolean truth
  | .path segments => .path segments
  | .call name args => .call name (Argument.mapSpanEach f args)
  | .array items => .array (Value.mapSpanEach f items)

/-- Values with other spans. -/
def Value.mapSpanEach (f : Span → Span) : List Value → List Value
  | [] => []
  | value :: rest => value.mapSpan f :: Value.mapSpanEach f rest

/-- Arguments with other spans. -/
def Argument.mapSpanEach (f : Span → Span) : List Argument → List Argument
  | [] => []
  | ⟨name, value, span⟩ :: rest =>
    ⟨name.map (·.mapSpan f), value.mapSpan f, f span⟩ :: Argument.mapSpanEach f rest

end

theorem Value.mapSpanEach_eq_map (f : Span → Span) (l : List Value) :
    mapSpanEach f l = l.map (·.mapSpan f) := by
  induction l with
  | nil => rfl
  | cons v l ih => rw [mapSpanEach, ih, List.map_cons]

/-! ### Forgetting spans -/

/-- The span that stands for all others. -/
def Span.nowhere : Span := ⟨0, 0, 0⟩

/-- The name without its span. -/
def Ident.unplaced (i : Ident) : Ident := { i with span := .nowhere }

/-- The value without spans. -/
def Value.unplaced (v : Value) : Value := v.mapSpan fun _ => .nowhere

/-- Arguments without spans. -/
def Argument.unplacedEach (args : List Argument) : List Argument :=
  Argument.mapSpanEach (fun _ => .nowhere) args

theorem Argument.unplacedEach_cons (name : Option Ident) (value : Value) (span : Span)
    (rest : List Argument) : unplacedEach (⟨name, value, span⟩ :: rest) =
      ⟨name.map (·.unplaced), value.unplaced, .nowhere⟩ :: unplacedEach rest := by
  rw [unplacedEach, mapSpanEach]
  rfl

theorem Value.unplaced_call (name : String) (args : List Argument) :
    (Value.call name args).unplaced = .call name (Argument.unplacedEach args) := by
  rw [unplaced, mapSpan]
  rfl

theorem Value.unplaced_array (items : List Value) :
    (Value.array items).unplaced = .array (items.map (·.unplaced)) := by
  rw [unplaced, mapSpan, mapSpanEach_eq_map]
  rfl

/-- The attribute without spans. -/
def Attribute.unplaced (a : Attribute) : Attribute :=
  ⟨a.name.unplaced, Argument.unplacedEach a.args, .nowhere⟩

/-- The comment without its span. -/
def Comment.unplaced (c : Comment) : Comment := { c with span := .nowhere }

/-- The type without its span. -/
def FieldType.unplaced : FieldType → FieldType
  | .scalar type => .scalar type
  | .named ident => .named ident.unplaced
  | .unsupported text => .unsupported text

/-- The field without spans. -/
def Field.unplaced (f : Field) : Field :=
  ⟨f.name.unplaced, f.type.unplaced, f.modifier, f.attributes.map (·.unplaced),
    f.comment.map (·.unplaced), .nowhere⟩

/-- The attribute of a block without spans. -/
def BlockAttribute.unplaced (a : BlockAttribute) : BlockAttribute :=
  ⟨a.attr.unplaced, a.comment.map (·.unplaced)⟩

/-- The line of a model without spans. -/
def ModelMember.unplaced : ModelMember → ModelMember
  | .field f => .field f.unplaced
  | .blockAttribute a => .blockAttribute a.unplaced
  | .comment c => .comment c.unplaced

/-- The value of an enum without spans. -/
def EnumValue.unplaced (v : EnumValue) : EnumValue :=
  ⟨v.name.unplaced, v.attributes.map (·.unplaced), v.comment.map (·.unplaced), .nowhere⟩

/-- The line of an enum without spans. -/
def EnumMember.unplaced : EnumMember → EnumMember
  | .value v => .value v.unplaced
  | .blockAttribute a => .blockAttribute a.unplaced
  | .comment c => .comment c.unplaced

/-- The property without spans. -/
def Property.unplaced (p : Property) : Property :=
  ⟨p.name.unplaced, p.value.unplaced, p.comment.map (·.unplaced), .nowhere⟩

/-- The line of a block of configuration without spans. -/
def ConfigMember.unplaced : ConfigMember → ConfigMember
  | .property p => .property p.unplaced
  | .comment c => .comment c.unplaced

/-- The declaration without spans. -/
def Declaration.unplaced : Declaration → Declaration
  | .config b => .config ⟨b.kind, b.name.unplaced, b.members.map (·.unplaced), .nowhere⟩
  | .model m => .model ⟨m.name.unplaced, m.members.map (·.unplaced), .nowhere⟩
  | .enum e => .enum ⟨e.name.unplaced, e.members.map (·.unplaced), .nowhere⟩
  | .comments b => .comments ⟨b.comments.map (·.unplaced), .nowhere⟩

/-- The schema without spans. -/
def Schema.unplaced (s : Schema) : Schema := ⟨s.declarations.map (·.unplaced)⟩

/-! ### Empty comments -/

/-- The comment at the end of a line: without text, its kind is not kept. -/
def Comment.atEnd (c : Comment) : Comment := if c.isEmpty then { c with kind := .line } else c

/-- A member that is a comment without text is dropped, and any other keeps what stands before
the comment at its end. -/
def ModelMember.tidied? : ModelMember → Option ModelMember
  | .field f => some (.field { f with comment := f.comment.map (·.atEnd) })
  | .blockAttribute a => some (.blockAttribute { a with comment := a.comment.map (·.atEnd) })
  | .comment c => if c.isEmpty then none else some (.comment c)

@[inherit_doc ModelMember.tidied?]
def EnumMember.tidied? : EnumMember → Option EnumMember
  | .value v => some (.value { v with comment := v.comment.map (·.atEnd) })
  | .blockAttribute a => some (.blockAttribute { a with comment := a.comment.map (·.atEnd) })
  | .comment c => if c.isEmpty then none else some (.comment c)

@[inherit_doc ModelMember.tidied?]
def ConfigMember.tidied? : ConfigMember → Option ConfigMember
  | .property p => some (.property { p with comment := p.comment.map (·.atEnd) })
  | .comment c => if c.isEmpty then none else some (.comment c)

/-- The declaration without comments that have no text. A block of comments is dropped when
nothing is left of it. -/
def Declaration.tidied? : Declaration → Option Declaration
  | .config b => some (.config { b with members := b.members.filterMap (·.tidied?) })
  | .model m => some (.model { m with members := m.members.filterMap (·.tidied?) })
  | .enum e => some (.enum { e with members := e.members.filterMap (·.tidied?) })
  | .comments b =>
    let kept := b.comments.filter (!·.isEmpty)
    if kept.isEmpty then none else some (.comments { b with comments := kept })

/-- The schema without comments that have no text. -/
def Schema.tidied (s : Schema) : Schema := ⟨s.declarations.filterMap (·.tidied?)⟩

end Pseudonym

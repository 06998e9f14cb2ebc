/-
# Where the parts of a schema stand

Each part of a schema that has a span, with the parts inside it in the order in
which a schema keeps them, as a forest. A forest is faithful to a text when
every span covers what its part is (a name, a comment behind its marker, an
attribute that starts with its sign and its name), and when the parts inside a
part, like those of the whole text, stand in a row: inside the span around
them, in order, and without overlaps.

The forest of a schema has all its spans: a change that leaves those of the
forest as they are leaves the schema as it is (`Schema.retouch_of_fixed`).
-/
import Pseudonym.Proofs.Syntax.Bare
import Pseudonym.Proofs.Syntax.Placed

namespace Pseudonym

open Peg

/-! ### Forests of spans -/

/-- What stands in a span. -/
inductive Label where
  | ident (name : String)
  | attribute (sign name : String)
  | comment (kind : CommentKind) (text : String)
  /-- Anything else that has parts of its own. -/
  | part
  deriving DecidableEq, Repr

/-- The text is one for this label. -/
def Label.Fits : Label → String → Prop
  | .ident name, w => w = name
  | .attribute sign name, w => ∃ rest, w = sign ++ name ++ rest
  | .comment kind text, w =>
    ∃ rest, w = kind.marker ++ rest ∧ text = .ofList (trimBlanks rest.toList)
  | .part, _ => True

/-- A span, what stands there, and the spans inside it. -/
structure Extent where
  span : Span
  label : Label
  inside : List Extent
  deriving Repr

mutual

/-- The span covers what stands there, and around a row of faithful spans. -/
def Extent.Faithful (text : String) : Extent → Prop
  | ⟨span, label, inside⟩ =>
    (∃ w, span.Covers text w ∧ label.Fits w) ∧ Extent.Row text span.start span.stop inside

/-- Faithful spans one behind the other between two offsets. -/
def Extent.Row (text : String) (lo hi : Nat) : List Extent → Prop
  | [] => lo ≤ hi
  | e :: rest => lo ≤ e.span.start ∧ e.Faithful text ∧ Extent.Row text e.span.stop hi rest

end

mutual

/-- The span and all spans inside it. -/
def Extent.spans : Extent → List Span
  | ⟨span, _, inside⟩ => span :: Extent.spansEach inside

@[inherit_doc Extent.spans]
def Extent.spansEach : List Extent → List Span
  | [] => []
  | e :: rest => e.spans ++ Extent.spansEach rest

end

namespace Extent

variable {text : String} {lo lo' hi hi' mid : Nat} {es es' : List Extent}

theorem Row.widen (h : Row text lo hi es) (hlo : lo' ≤ lo) (hhi : hi ≤ hi') :
    Row text lo' hi' es := by
  induction es generalizing lo lo' with
  | nil => exact Nat.le_trans (Nat.le_trans hlo h) hhi
  | cons e es ih =>
    obtain ⟨hstart, he, hrest⟩ := h
    exact ⟨Nat.le_trans hlo hstart, he, ih hrest (Nat.le_refl _)⟩

theorem Row.append (h : Row text lo mid es) (h' : Row text mid hi es') :
    Row text lo hi (es ++ es') := by
  induction es generalizing lo with
  | nil => exact h'.widen h (Nat.le_refl hi)
  | cons e es ih =>
    obtain ⟨hstart, he, hrest⟩ := h
    exact ⟨hstart, he, ih hrest⟩

mutual

/-- Every span of a faithful forest covers something. -/
theorem Faithful.covers_of_mem : ∀ e : Extent, e.Faithful text → ∀ x ∈ e.spans,
    ∃ w, x.Covers text w
  | ⟨span, label, inside⟩, h, x, hx => by
    obtain ⟨⟨w, hw, -⟩, hinside⟩ := h
    rcases List.mem_cons.mp hx with hx | hx
    · rw [hx]
      exact ⟨w, hw⟩
    · exact Row.covers_of_mem inside _ _ hinside x hx

@[inherit_doc Faithful.covers_of_mem]
theorem Row.covers_of_mem : ∀ (es : List Extent) (lo hi : Nat), Row text lo hi es →
    ∀ x ∈ spansEach es, ∃ w, x.Covers text w
  | [], _, _, _, _, hx => nomatch hx
  | e :: es, lo, hi, h, x, hx => by
    obtain ⟨-, he, hrest⟩ := h
    rcases List.mem_append.mp hx with hx | hx
    · exact Faithful.covers_of_mem e he x hx
    · exact Row.covers_of_mem es _ hi hrest x hx

end

end Extent

/-! ### The spans of a schema -/

/-- Where a name stands. -/
def Ident.extent (i : Ident) : Extent := ⟨i.span, .ident i.name, []⟩

/-- Where a comment stands. -/
def Comment.extent (c : Comment) : Extent := ⟨c.span, .comment c.kind c.text, []⟩

mutual

/-- Where the arguments in a value stand. -/
def Value.extents : Value → List Extent
  | .call _ args => Argument.extentsEach args
  | .array items => Value.extentsEach items
  | .string _ => []
  | .int _ => []
  | .number _ => []
  | .boolean _ => []
  | .path _ => []

@[inherit_doc Value.extents]
def Value.extentsEach : List Value → List Extent
  | [] => []
  | v :: rest => v.extents ++ Value.extentsEach rest

/-- Where an argument stands, with its name and the arguments in its value. -/
def Argument.extent : Argument → Extent
  | ⟨name, value, span⟩ => ⟨span, .part, name.toList.map Ident.extent ++ value.extents⟩

@[inherit_doc Argument.extent]
def Argument.extentsEach : List Argument → List Extent
  | [] => []
  | a :: rest => a.extent :: Argument.extentsEach rest

end

/-- Where an attribute stands, with its name and its arguments. -/
def Attribute.extent (sign : String) (a : Attribute) : Extent :=
  ⟨a.span, .attribute sign a.name.name, a.name.extent :: Argument.extentsEach a.args⟩

/-- Where the name of a type stands, if it is that of a model or an enum. -/
def FieldType.extents : FieldType → List Extent
  | .named ident => [ident.extent]
  | .scalar _ => []
  | .unsupported _ => []

/-- Where the attributes of a field or of a value stand, and the comment behind them. -/
def tailExtents (attributes : List Attribute) (comment : Option Comment) : List Extent :=
  attributes.map (·.extent "@") ++ comment.toList.map Comment.extent

/-- Where a field stands, with its name, its type and what follows. -/
def Field.extent (f : Field) : Extent :=
  ⟨f.span, .part, f.name.extent :: (f.type.extents ++ tailExtents f.attributes f.comment)⟩

/-- Where an attribute of a block stands, and the comment behind it. -/
def BlockAttribute.extents (a : BlockAttribute) : List Extent :=
  a.attr.extent "@@" :: a.comment.toList.map Comment.extent

/-- Where a member of a model stands. -/
def ModelMember.extents : ModelMember → List Extent
  | .field f => [f.extent]
  | .blockAttribute a => a.extents
  | .comment c => [c.extent]

/-- Where a model stands, with its name and its members. -/
def Model.extent (m : Model) : Extent :=
  ⟨m.span, .part, m.name.extent :: m.members.flatMap ModelMember.extents⟩

/-- Where a value of an enum stands, with its name and what follows. -/
def EnumValue.extent (v : EnumValue) : Extent :=
  ⟨v.span, .part, v.name.extent :: tailExtents v.attributes v.comment⟩

/-- Where a member of an enum stands. -/
def EnumMember.extents : EnumMember → List Extent
  | .value v => [v.extent]
  | .blockAttribute a => a.extents
  | .comment c => [c.extent]

/-- Where an enum stands, with its name and its members. -/
def Enum.extent (e : Enum) : Extent :=
  ⟨e.span, .part, e.name.extent :: e.members.flatMap EnumMember.extents⟩

/-- Where a property stands, with its name, the arguments in its value and its comment. -/
def Property.extent (p : Property) : Extent :=
  ⟨p.span, .part, p.name.extent :: (p.value.extents ++ p.comment.toList.map Comment.extent)⟩

/-- Where a member of a block of configuration stands. -/
def ConfigMember.extents : ConfigMember → List Extent
  | .property p => [p.extent]
  | .comment c => [c.extent]

/-- Where a block of configuration stands, with its name and its members. -/
def ConfigBlock.extent (b : ConfigBlock) : Extent :=
  ⟨b.span, .part, b.name.extent :: b.members.flatMap ConfigMember.extents⟩

/-- Where a declaration stands. -/
def Declaration.extent : Declaration → Extent
  | .config b => b.extent
  | .model m => m.extent
  | .enum e => e.extent
  | .comments b => ⟨b.span, .part, b.comments.map Comment.extent⟩

/-- Where the declarations of a schema stand, with all their parts. -/
def Schema.extents (s : Schema) : List Extent := s.declarations.map Declaration.extent

/-- All spans of a schema. -/
def Schema.spans (s : Schema) : List Span := Extent.spansEach s.extents

/-! ### The forest has all spans -/

/-- A change of spans leaves those of a forest as they are. -/
def Extent.Fixed (f : Span → Span) (es : List Extent) : Prop := ∀ x ∈ Extent.spansEach es, f x = x

section Fixed

variable {f : Span → Span} {es es' : List Extent}

theorem Extent.fixed_cons {span : Span} {label : Label} {inside : List Extent} :
    Extent.Fixed f (⟨span, label, inside⟩ :: es) ↔
      f span = span ∧ Extent.Fixed f inside ∧ Extent.Fixed f es := by
  simp only [Extent.Fixed, Extent.spansEach, Extent.spans, List.mem_append, List.mem_cons, or_imp,
    forall_and, forall_eq, and_assoc]

theorem Extent.fixed_append :
    Extent.Fixed f (es ++ es') ↔ Extent.Fixed f es ∧ Extent.Fixed f es' := by
  induction es with
  | nil => simp [Extent.Fixed, Extent.spansEach]
  | cons e es ih =>
    obtain ⟨span, label, inside⟩ := e
    rw [List.cons_append, Extent.fixed_cons, Extent.fixed_cons, ih]
    simp only [and_assoc]

/-- A list whose items have fixed extents stays as it is. -/
theorem map_of_fixed {α : Type} {extents : α → List Extent} {change : α → α}
    (hchange : ∀ a, Extent.Fixed f (extents a) → change a = a) :
    ∀ as : List α, Extent.Fixed f (as.flatMap extents) → as.map change = as
  | [], _ => rfl
  | a :: as, h => by
    rw [List.flatMap_cons, Extent.fixed_append] at h
    rw [List.map_cons, hchange a h.1, map_of_fixed hchange as h.2]

theorem Ident.mapSpan_of_fixed (i : Ident) (h : f i.span = i.span) : i.mapSpan f = i := by
  rw [Ident.mapSpan, h]

theorem Comment.mapSpan_of_fixed (c : Comment) (h : f c.span = c.span) : c.mapSpan f = c := by
  rw [Comment.mapSpan, h]

theorem Comment.map_mapSpan_of_fixed (c : Option Comment)
    (h : Extent.Fixed f (c.toList.map Comment.extent)) : c.map (Comment.mapSpan f) = c := by
  cases c with
  | none => rfl
  | some c => exact congrArg some (c.mapSpan_of_fixed (Extent.fixed_cons.mp h).1)

mutual

theorem Value.mapSpan_of_fixed : ∀ v : Value, Extent.Fixed f v.extents → v.mapSpan f = v
  | .call name args, h => by
    rw [Value.extents] at h
    rw [Value.mapSpan, Argument.mapSpanEach_of_fixed args h]
  | .array items, h => by
    rw [Value.extents] at h
    rw [Value.mapSpan, Value.mapSpanEach_of_fixed items h]
  | .string _, _ | .int _, _ | .number _, _ | .boolean _, _ | .path _, _ => by rw [Value.mapSpan]

theorem Value.mapSpanEach_of_fixed : ∀ vs : List Value, Extent.Fixed f (Value.extentsEach vs) →
    Value.mapSpanEach f vs = vs
  | [], _ => by rw [Value.mapSpanEach]
  | v :: vs, h => by
    rw [Value.extentsEach, Extent.fixed_append] at h
    rw [Value.mapSpanEach, Value.mapSpan_of_fixed v h.1, Value.mapSpanEach_of_fixed vs h.2]

theorem Argument.mapSpanEach_of_fixed : ∀ as : List Argument,
    Extent.Fixed f (Argument.extentsEach as) → Argument.mapSpanEach f as = as
  | [], _ => by rw [Argument.mapSpanEach]
  | ⟨name, value, span⟩ :: as, h => by
    rw [Argument.extentsEach, Argument.extent, Extent.fixed_cons, Extent.fixed_append] at h
    obtain ⟨hspan, ⟨hname, hvalue⟩, has⟩ := h
    have hname : name.map (·.mapSpan f) = name := by
      cases name with
      | none => rfl
      | some i => exact congrArg some (i.mapSpan_of_fixed (Extent.fixed_cons.mp hname).1)
    rw [Argument.mapSpanEach, hspan, hname, Value.mapSpan_of_fixed value hvalue,
      Argument.mapSpanEach_of_fixed as has]

end

theorem Attribute.mapSpan_of_fixed {sign : String} (a : Attribute)
    (h : Extent.Fixed f [a.extent sign]) : (Retouch.mapSpan f).onAttribute a = a := by
  rw [Attribute.extent, Extent.fixed_cons, Ident.extent, Extent.fixed_cons] at h
  obtain ⟨hspan, ⟨hname, -, hargs⟩, -⟩ := h
  have hname : (Retouch.mapSpan f).ident a.name = a.name := a.name.mapSpan_of_fixed hname
  have hspan : (Retouch.mapSpan f).span a.span = a.span := hspan
  rw [Retouch.onAttribute, ← Argument.mapSpanEach_eq_map, Argument.mapSpanEach_of_fixed _ hargs,
    hname, hspan]

theorem tail_of_fixed {attributes : List Attribute} {comment : Option Comment}
    (h : Extent.Fixed f (tailExtents attributes comment)) :
    attributes.map (Retouch.mapSpan f).onAttribute = attributes ∧
      comment.map (Retouch.mapSpan f).comment = comment := by
  rw [tailExtents, Extent.fixed_append, List.map_eq_flatMap] at h
  exact ⟨map_of_fixed (fun a => a.mapSpan_of_fixed) attributes h.1,
    Comment.map_mapSpan_of_fixed comment h.2⟩

theorem FieldType.mapSpan_of_fixed (type : FieldType) (h : Extent.Fixed f type.extents) :
    (Retouch.mapSpan f).onType type = type := by
  cases type with
  | named i => exact congrArg FieldType.named (i.mapSpan_of_fixed (Extent.fixed_cons.mp h).1)
  | scalar _ => rfl
  | unsupported _ => rfl

/-- A part with a name stays as it is if its span, its name and the parts behind the name do. -/
theorem Extent.fixed_named {span : Span} {i : Ident}
    (h : Extent.Fixed f [⟨span, .part, i.extent :: es⟩]) :
    (Retouch.mapSpan f).span span = span ∧ (Retouch.mapSpan f).ident i = i ∧ Extent.Fixed f es := by
  rw [Extent.fixed_cons, Ident.extent, Extent.fixed_cons] at h
  obtain ⟨hspan, ⟨hname, -, hrest⟩, -⟩ := h
  exact ⟨hspan, i.mapSpan_of_fixed hname, hrest⟩

theorem Field.mapSpan_of_fixed (field : Field) (h : Extent.Fixed f [field.extent]) :
    (Retouch.mapSpan f).onField field = field := by
  obtain ⟨hspan, hname, hrest⟩ := Extent.fixed_named h
  obtain ⟨htype, htail⟩ := Extent.fixed_append.mp hrest
  obtain ⟨hattributes, hcomment⟩ := tail_of_fixed htail
  rw [Retouch.onField, hspan, hname, field.type.mapSpan_of_fixed htype, hattributes, hcomment]

theorem BlockAttribute.mapSpan_of_fixed (a : BlockAttribute) (h : Extent.Fixed f a.extents) :
    (Retouch.mapSpan f).onBlockAttribute a = a := by
  have h : Extent.Fixed f ([a.attr.extent "@@"] ++ a.comment.toList.map Comment.extent) := h
  obtain ⟨hattr, hcomment⟩ := Extent.fixed_append.mp h
  have hcomment : a.comment.map (Retouch.mapSpan f).comment = a.comment :=
    Comment.map_mapSpan_of_fixed a.comment hcomment
  rw [Retouch.onBlockAttribute, a.attr.mapSpan_of_fixed hattr, hcomment]

theorem ModelMember.mapSpan_of_fixed (m : ModelMember) (h : Extent.Fixed f m.extents) :
    (Retouch.mapSpan f).onModelMember m = m := by
  cases m with
  | field field => exact congrArg ModelMember.field (field.mapSpan_of_fixed h)
  | blockAttribute a => exact congrArg ModelMember.blockAttribute (a.mapSpan_of_fixed h)
  | comment c => exact congrArg ModelMember.comment (c.mapSpan_of_fixed (Extent.fixed_cons.mp h).1)

theorem EnumMember.mapSpan_of_fixed (m : EnumMember) (h : Extent.Fixed f m.extents) :
    (Retouch.mapSpan f).onEnumMember m = m := by
  cases m with
  | value v =>
    obtain ⟨hspan, hname, htail⟩ := Extent.fixed_named h
    obtain ⟨hattributes, hcomment⟩ := tail_of_fixed htail
    rw [Retouch.onEnumMember, hspan, hname, hattributes, hcomment]
  | blockAttribute a => exact congrArg EnumMember.blockAttribute (a.mapSpan_of_fixed h)
  | comment c => exact congrArg EnumMember.comment (c.mapSpan_of_fixed (Extent.fixed_cons.mp h).1)

theorem ConfigMember.mapSpan_of_fixed (m : ConfigMember) (h : Extent.Fixed f m.extents) :
    (Retouch.mapSpan f).onConfigMember m = m := by
  cases m with
  | property p =>
    obtain ⟨hspan, hname, hrest⟩ := Extent.fixed_named h
    obtain ⟨hvalue, hcomment⟩ := Extent.fixed_append.mp hrest
    have hvalue : (Retouch.mapSpan f).value p.value = p.value := p.value.mapSpan_of_fixed hvalue
    have hcomment : p.comment.map (Retouch.mapSpan f).comment = p.comment :=
      Comment.map_mapSpan_of_fixed p.comment hcomment
    rw [Retouch.onConfigMember, hspan, hname, hvalue, hcomment]
  | comment c => exact congrArg ConfigMember.comment (c.mapSpan_of_fixed (Extent.fixed_cons.mp h).1)

theorem Declaration.mapSpan_of_fixed (d : Declaration) (h : Extent.Fixed f [d.extent]) :
    (Retouch.mapSpan f).onDeclaration d = d := by
  cases d with
  | config b =>
    obtain ⟨hspan, hname, hmembers⟩ := Extent.fixed_named h
    rw [Retouch.onDeclaration, hspan, hname, map_of_fixed ConfigMember.mapSpan_of_fixed _ hmembers]
  | model m =>
    obtain ⟨hspan, hname, hmembers⟩ := Extent.fixed_named h
    rw [Retouch.onDeclaration, hspan, hname, map_of_fixed ModelMember.mapSpan_of_fixed _ hmembers]
  | enum e =>
    obtain ⟨hspan, hname, hmembers⟩ := Extent.fixed_named h
    rw [Retouch.onDeclaration, hspan, hname, map_of_fixed EnumMember.mapSpan_of_fixed _ hmembers]
  | comments b =>
    obtain ⟨hspan, hcomments, -⟩ := Extent.fixed_cons.mp h
    have hspan : (Retouch.mapSpan f).span b.span = b.span := hspan
    rw [List.map_eq_flatMap] at hcomments
    have hcomment : ∀ c : Comment, Extent.Fixed f [c.extent] → (Retouch.mapSpan f).comment c = c :=
      fun c hc => c.mapSpan_of_fixed (Extent.fixed_cons.mp hc).1
    rw [Retouch.onDeclaration, hspan, map_of_fixed hcomment _ hcomments]

/-- A schema has no spans but those of its forest. -/
theorem Schema.retouch_of_fixed (s : Schema) (h : ∀ x ∈ s.spans, f x = x) :
    s.retouch (.mapSpan f) = s := by
  have hfixed : Extent.Fixed f (s.declarations.flatMap fun d => [d.extent]) := by
    rw [← List.map_eq_flatMap]
    exact h
  rw [Schema.retouch, map_of_fixed Declaration.mapSpan_of_fixed _ hfixed]

end Fixed

end Pseudonym

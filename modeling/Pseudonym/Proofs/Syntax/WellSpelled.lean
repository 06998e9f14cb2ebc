/-
# Well-spelled schemas

A schema is well spelled when all its words are words of the grammar: names
are names, numbers are numerals, texts of strings and comments have nothing
that would end them, and no word means something else where it stands. A path
does not start with a truth value, a named type is no scalar one, and digits
are kept as such only where they are no 64-bit integer.

These are the schemas that can be written and read again. Those that are read
from texts have at least one comment in each block of comments as well.
-/
import Pseudonym.Proofs.Syntax.Comments

namespace Pseudonym

/-- The names that a path has as a value: the first one is no truth value. -/
def IsSegments (segments : List String) : Prop :=
  (∀ name ∈ segments, isName name.toList = true) ∧
    ∃ first ∈ segments.head?, first ≠ "true" ∧ first ≠ "false"

mutual

/-- A value is well spelled. -/
def Value.WellSpelled : Value → Prop
  | .string text => IsContent text.toList
  | .int _ => True
  | .number digits =>
    IsNumeral digits.toList ∧ (wholeNumber? digits.toList).bind int64? = none
  | .boolean _ => True
  | .path segments => IsSegments segments
  | .call name args => IsPath name.toList ∧ Argument.WellSpelledEach args
  | .array items => Value.WellSpelledEach items

/-- Values are well spelled. -/
def Value.WellSpelledEach : List Value → Prop
  | [] => True
  | value :: rest => value.WellSpelled ∧ Value.WellSpelledEach rest

/-- Arguments are well spelled. -/
def Argument.WellSpelledEach : List Argument → Prop
  | [] => True
  | ⟨name, value, _⟩ :: rest =>
    (∀ ident ∈ name, isName ident.name.toList = true) ∧ value.WellSpelled ∧
      Argument.WellSpelledEach rest

end

/-- An attribute is well spelled. -/
def Attribute.WellSpelled (a : Attribute) : Prop :=
  IsPath a.name.name.toList ∧ Argument.WellSpelledEach a.args

/-- A type is well spelled. -/
def FieldType.WellSpelled : FieldType → Prop
  | .scalar _ => True
  | .named ident => isName ident.name.toList = true ∧ ScalarType.ofWord? ident.name = none
  | .unsupported text => IsContent text.toList

/-- A field is well spelled. -/
structure Field.WellSpelled (f : Field) : Prop where
  name : isName f.name.name.toList = true
  type : f.type.WellSpelled
  attributes : ∀ a ∈ f.attributes, a.WellSpelled
  comment : ∀ c ∈ f.comment, c.WellSpelled

/-- An attribute of a block is well spelled. -/
structure BlockAttribute.WellSpelled (a : BlockAttribute) : Prop where
  attr : a.attr.WellSpelled
  comment : ∀ c ∈ a.comment, c.WellSpelled

/-- A value of an enum is well spelled. -/
structure EnumValue.WellSpelled (v : EnumValue) : Prop where
  name : isName v.name.name.toList = true
  attributes : ∀ a ∈ v.attributes, a.WellSpelled
  comment : ∀ c ∈ v.comment, c.WellSpelled

/-- A property is well spelled. -/
structure Property.WellSpelled (p : Property) : Prop where
  name : isName p.name.name.toList = true
  value : p.value.WellSpelled
  comment : ∀ c ∈ p.comment, c.WellSpelled

/-- A member of a model is well spelled. -/
def ModelMember.WellSpelled : ModelMember → Prop
  | .field f => f.WellSpelled
  | .blockAttribute a => a.WellSpelled
  | .comment c => c.WellSpelled

/-- A member of an enum is well spelled. -/
def EnumMember.WellSpelled : EnumMember → Prop
  | .value v => v.WellSpelled
  | .blockAttribute a => a.WellSpelled
  | .comment c => c.WellSpelled

/-- A member of a block of configuration is well spelled. -/
def ConfigMember.WellSpelled : ConfigMember → Prop
  | .property p => p.WellSpelled
  | .comment c => c.WellSpelled

/-- A declaration is well spelled. -/
def Declaration.WellSpelled : Declaration → Prop
  | .config b => isName b.name.name.toList = true ∧ ∀ member ∈ b.members, member.WellSpelled
  | .model m => isName m.name.name.toList = true ∧ ∀ member ∈ m.members, member.WellSpelled
  | .enum e => isName e.name.name.toList = true ∧ ∀ member ∈ e.members, member.WellSpelled
  | .comments b => ∀ c ∈ b.comments, c.WellSpelled

/-- A schema is well spelled. -/
def Schema.WellSpelled (s : Schema) : Prop := ∀ d ∈ s.declarations, d.WellSpelled

/-- A declaration that can be read: a block of comments is there for its comments. -/
def Declaration.Readable (d : Declaration) : Prop :=
  d.WellSpelled ∧ ∀ b, d = .comments b → b.comments ≠ []

/-- A schema that can be read. -/
def Schema.Readable (s : Schema) : Prop := ∀ d ∈ s.declarations, d.Readable

end Pseudonym

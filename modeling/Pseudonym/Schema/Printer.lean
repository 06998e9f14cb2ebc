/-
# Writing schemas

A schema is written in one shape: two spaces before a member, one space
between the parts of a line, one empty line between declarations, and no other
empty line but the place of a comment without text. A comment at the end of a
line keeps its marker when its text is gone, so the member still ends in one.
-/
import Pseudonym.Schema.Basic

namespace Pseudonym

/-! ### Values and attributes -/

mutual

/-- How a value is written. -/
def Value.render : Value → String
  | .string text => "\"" ++ text ++ "\""
  | .int n => toString n
  | .number digits => digits
  | .boolean true => "true"
  | .boolean false => "false"
  | .path segments => ".".intercalate segments
  | .call name args => name ++ "(" ++ ", ".intercalate (Argument.renderEach args) ++ ")"
  | .array items => "[" ++ ", ".intercalate (Value.renderEach items) ++ "]"

/-- How each of some values is written. -/
def Value.renderEach : List Value → List String
  | [] => []
  | value :: rest => value.render :: Value.renderEach rest

/-- How each of some arguments is written. -/
def Argument.renderEach : List Argument → List String
  | [] => []
  | ⟨none, value, _⟩ :: rest => value.render :: Argument.renderEach rest
  | ⟨some name, value, _⟩ :: rest =>
    (name.name ++ ": " ++ value.render) :: Argument.renderEach rest

end

/-- How an attribute is written behind its sign, `@` or `@@`. -/
def Attribute.render (sign : String) (a : Attribute) : String :=
  if a.args.isEmpty then sign ++ a.name.name
  else sign ++ a.name.name ++ "(" ++ ", ".intercalate (Argument.renderEach a.args) ++ ")"

/-! ### Comments -/

namespace Comment

/-- How a comment is written. -/
def render (c : Comment) : String :=
  if c.isEmpty then c.kind.marker else c.kind.marker ++ " " ++ c.text

/-- The line of a comment inside a block. -/
def line (c : Comment) : String := if c.isEmpty then "" else "  " ++ c.render

/-- What a comment, or none, adds to the end of a line. -/
def trailing : Option Comment → String
  | none => ""
  | some c => if c.isEmpty then " //" else " " ++ c.render

end Comment

/-! ### Members -/

/-- The attributes behind a field or a value of an enum. -/
def Attribute.renderTail (attributes : List Attribute) : String :=
  String.join (attributes.map fun a => " " ++ a.render "@")

/-- The line of an attribute of a block. -/
def BlockAttribute.line (a : BlockAttribute) : String :=
  "  " ++ a.attr.render "@@" ++ Comment.trailing a.comment

/-- The line of a field. -/
def Field.line (f : Field) : String :=
  "  " ++ f.name.name ++ " " ++ f.type.render ++ f.modifier.suffix ++
    Attribute.renderTail f.attributes ++ Comment.trailing f.comment

/-- The line of a value of an enum. -/
def EnumValue.line (v : EnumValue) : String :=
  "  " ++ v.name.name ++ Attribute.renderTail v.attributes ++ Comment.trailing v.comment

/-- The line of a property. -/
def Property.line (p : Property) : String :=
  "  " ++ p.name.name ++ " = " ++ p.value.render ++ Comment.trailing p.comment

/-- The line of a member of a model. -/
def ModelMember.line : ModelMember → String
  | .field f => f.line
  | .blockAttribute a => a.line
  | .comment c => c.line

/-- The line of a member of an enum. -/
def EnumMember.line : EnumMember → String
  | .value v => v.line
  | .blockAttribute a => a.line
  | .comment c => c.line

/-- The line of a member of a block of configuration. -/
def ConfigMember.line : ConfigMember → String
  | .property p => p.line
  | .comment c => c.line

/-! ### Declarations -/

/-- A block with these lines between its braces. -/
def renderBlock (keyword name : String) (lines : List String) : String :=
  keyword ++ " " ++ name ++ " \x7b\n" ++ String.join (lines.map (· ++ "\n")) ++ "\x7d"

/-- How the comments of a block are written: those with a text, one a line. -/
def CommentBlock.render (b : CommentBlock) : String :=
  "\n".intercalate ((b.comments.filter (!·.isEmpty)).map (·.render))

/-- How a declaration is written. -/
def Declaration.render : Declaration → String
  | .config b => renderBlock b.kind.word b.name.name (b.members.map (·.line))
  | .model m => renderBlock "model" m.name.name (m.members.map (·.line))
  | .enum e => renderBlock "enum" e.name.name (e.members.map (·.line))
  | .comments b => b.render

/-- How a schema is written. -/
def Schema.render (s : Schema) : String :=
  if s.declarations.isEmpty then ""
  else "\n\n".intercalate (s.declarations.map (·.render)) ++ "\n"

end Pseudonym

/-
# Schemas

A schema is a list of declarations: blocks of configuration, models, enums,
and comments that stand by themselves. Everything stays in the order in which
it is written, comments included, so that a schema can be written out again in
the shape it had.

Lookups give the first match in this order.
-/
import Pseudonym.Schema.Value

namespace Pseudonym

/-! ### Comments -/

/-- A comment for readers of the source, or one that documents what follows. -/
inductive CommentKind where
  | line
  | doc
  deriving DecidableEq, Repr

/-- How a comment starts. -/
def CommentKind.marker : CommentKind → String
  | .line => "//"
  | .doc => "///"

/-- A comment: its text is what stands behind the marker, without white space at its ends. -/
structure Comment where
  kind : CommentKind
  text : String
  span : Span
  deriving DecidableEq, Repr

namespace Comment

/-- The comment without its text. -/
def cleared (c : Comment) : Comment := { c with text := "" }

/-- Whether a comment has no text. -/
def isEmpty (c : Comment) : Bool := c.text.isEmpty

end Comment

/-- Comments on lines of their own, outside any block. -/
structure CommentBlock where
  comments : List Comment
  span : Span
  deriving DecidableEq, Repr

/-! ### Types of fields -/

/-- The types that are not declared in a schema. -/
inductive ScalarType where
  | string
  | boolean
  | int
  | bigInt
  | float
  | decimal
  | dateTime
  | json
  | bytes
  deriving DecidableEq, Repr

namespace ScalarType

/-- All of them. -/
def all : List ScalarType :=
  [.string, .boolean, .int, .bigInt, .float, .decimal, .dateTime, .json, .bytes]

/-- How a scalar type is written. -/
def word : ScalarType → String
  | .string => "String"
  | .boolean => "Boolean"
  | .int => "Int"
  | .bigInt => "BigInt"
  | .float => "Float"
  | .decimal => "Decimal"
  | .dateTime => "DateTime"
  | .json => "Json"
  | .bytes => "Bytes"

/-- The scalar type that is written like this. -/
def ofWord? (word : String) : Option ScalarType := all.find? (·.word == word)

end ScalarType

/-- The type of a field. -/
inductive FieldType where
  | scalar (type : ScalarType)
  /-- A model or an enum, by name. -/
  | named (ident : Ident)
  /-- A type of the database that has no other name, given as its text. -/
  | unsupported (text : String)
  deriving DecidableEq, Repr

namespace FieldType

/-- The scalar type. -/
def scalar? : FieldType → Option ScalarType
  | .scalar type => some type
  | _ => none

/-- The name of a model or an enum. -/
def reference? : FieldType → Option Ident
  | .named ident => some ident
  | _ => none

/-- The one word that a type is, if it is one. -/
def word? : FieldType → Option String
  | .scalar type => some type.word
  | .named ident => some ident.name
  | .unsupported _ => none

/-- How a type is written. -/
def render : FieldType → String
  | .scalar type => type.word
  | .named ident => ident.name
  | .unsupported text => "Unsupported(\"" ++ text ++ "\")"

end FieldType

/-- Whether a field may be missing, and whether it is a list. -/
inductive TypeModifier where
  | required
  | optional
  | list
  | optionalList
  deriving DecidableEq, Repr

namespace TypeModifier

/-- Whether a field may be missing. -/
def isOptional : TypeModifier → Bool
  | .optional => true
  | .optionalList => true
  | _ => false

/-- Whether a field is a list. -/
def isList : TypeModifier → Bool
  | .list => true
  | .optionalList => true
  | _ => false

/-- What is written behind the type. -/
def suffix : TypeModifier → String
  | .required => ""
  | .optional => "?"
  | .list => "[]"
  | .optionalList => "[]?"

end TypeModifier

/-! ### Models -/

/-- A field of a model. -/
structure Field where
  name : Ident
  type : FieldType
  modifier : TypeModifier
  attributes : List Attribute
  comment : Option Comment
  span : Span
  deriving Repr

namespace Field

/-- Whether a field has an attribute of this name. -/
def hasAttribute (f : Field) (name : String) : Bool := f.attributes.any (·.is name)

/-- The first attribute of this name. -/
def attribute? (f : Field) (name : String) : Option Attribute := f.attributes.find? (·.is name)

end Field

/-- An attribute of a whole block, on a line of its own. -/
structure BlockAttribute where
  attr : Attribute
  comment : Option Comment
  deriving Repr

/-- What stands on the lines of a model. -/
inductive ModelMember where
  | field (field : Field)
  | blockAttribute (attr : BlockAttribute)
  | comment (comment : Comment)
  deriving Repr

namespace ModelMember

/-- The field that a member is. -/
def field? : ModelMember → Option Field
  | .field f => some f
  | _ => none

/-- The attribute that a member is. -/
def attribute? : ModelMember → Option Attribute
  | .blockAttribute a => some a.attr
  | _ => none

end ModelMember

/-- A model. -/
structure Model where
  name : Ident
  members : List ModelMember
  span : Span
  deriving Repr

namespace Model

/-- The fields of a model. -/
def fields (m : Model) : List Field := m.members.filterMap (·.field?)

/-- The attributes of a model itself. -/
def attributes (m : Model) : List Attribute := m.members.filterMap (·.attribute?)

/-- The first field of this name. -/
def field? (m : Model) (name : String) : Option Field := m.fields.find? (·.name.name == name)

/-- Whether the model itself has an attribute of this name. -/
def hasAttribute (m : Model) (name : String) : Bool := m.attributes.any (·.is name)

/-- The model's own first attribute of this name. -/
def attribute? (m : Model) (name : String) : Option Attribute := m.attributes.find? (·.is name)

end Model

/-! ### Enums -/

/-- A value of an enum. -/
structure EnumValue where
  name : Ident
  attributes : List Attribute
  comment : Option Comment
  span : Span
  deriving Repr

/-- What stands on the lines of an enum. -/
inductive EnumMember where
  | value (value : EnumValue)
  | blockAttribute (attr : BlockAttribute)
  | comment (comment : Comment)
  deriving Repr

/-- The value that a member is. -/
def EnumMember.value? : EnumMember → Option EnumValue
  | .value v => some v
  | _ => none

/-- An enum. -/
structure Enum where
  name : Ident
  members : List EnumMember
  span : Span
  deriving Repr

namespace Enum

/-- The values of an enum. -/
def values (e : Enum) : List EnumValue := e.members.filterMap (·.value?)

/-- The first value of this name. -/
def value? (e : Enum) (name : String) : Option EnumValue := e.values.find? (·.name.name == name)

end Enum

/-! ### Configuration -/

/-- What a block of configuration describes. -/
inductive ConfigKind where
  | datasource
  | generator
  deriving DecidableEq, Repr

namespace ConfigKind

/-- Both of them. -/
def all : List ConfigKind := [.datasource, .generator]

/-- The keyword of a kind. -/
def word : ConfigKind → String
  | .datasource => "datasource"
  | .generator => "generator"

/-- The kind with this keyword. -/
def ofWord? (word : String) : Option ConfigKind := all.find? (·.word == word)

end ConfigKind

/-- A property of a block of configuration. -/
structure Property where
  name : Ident
  value : Value
  comment : Option Comment
  span : Span
  deriving Repr

/-- What stands on the lines of a block of configuration. -/
inductive ConfigMember where
  | property (property : Property)
  | comment (comment : Comment)
  deriving Repr

/-- The property that a member is. -/
def ConfigMember.property? : ConfigMember → Option Property
  | .property p => some p
  | .comment _ => none

/-- A block of configuration. -/
structure ConfigBlock where
  kind : ConfigKind
  name : Ident
  members : List ConfigMember
  span : Span
  deriving Repr

namespace ConfigBlock

/-- The properties of a block. -/
def properties (b : ConfigBlock) : List Property := b.members.filterMap (·.property?)

/-- The value of the first property of this name. -/
def value? (b : ConfigBlock) (name : String) : Option Value :=
  (b.properties.find? (·.name.name == name)).map (·.value)

end ConfigBlock

/-! ### Schemas -/

/-- A declaration. -/
inductive Declaration where
  | config (block : ConfigBlock)
  | model (model : Model)
  | enum (enum : Enum)
  | comments (block : CommentBlock)
  deriving Repr

namespace Declaration

/-- The word for what is declared. -/
def kind : Declaration → String
  | .config block => block.kind.word
  | .model _ => "model"
  | .enum _ => "enum"
  | .comments _ => "comment"

/-- The model that is declared. -/
def model? : Declaration → Option Model
  | .model m => some m
  | _ => none

/-- The enum that is declared. -/
def enum? : Declaration → Option Enum
  | .enum e => some e
  | _ => none

/-- The block of configuration that is declared. -/
def config? : Declaration → Option ConfigBlock
  | .config b => some b
  | _ => none

end Declaration

/-- A schema. -/
structure Schema where
  declarations : List Declaration
  deriving Repr

/-- How much a schema declares. -/
structure Stats where
  models : Nat
  enums : Nat
  fields : Nat
  values : Nat
  deriving DecidableEq, Repr

namespace Schema

/-- The schema without declarations. -/
def empty : Schema := ⟨[]⟩

/-- The declarations of one schema, then those of another. -/
def append (s t : Schema) : Schema := ⟨s.declarations ++ t.declarations⟩

/-- The models of a schema. -/
def models (s : Schema) : List Model := s.declarations.filterMap (·.model?)

/-- The enums of a schema. -/
def enums (s : Schema) : List Enum := s.declarations.filterMap (·.enum?)

/-- The blocks of configuration of a schema. -/
def configBlocks (s : Schema) : List ConfigBlock := s.declarations.filterMap (·.config?)

/-- The first model of this name. -/
def model? (s : Schema) (name : String) : Option Model := s.models.find? (·.name.name == name)

/-- The first enum of this name. -/
def enum? (s : Schema) (name : String) : Option Enum := s.enums.find? (·.name.name == name)

/-- The first block of configuration of this name. -/
def configBlock? (s : Schema) (name : String) : Option ConfigBlock :=
  s.configBlocks.find? (·.name.name == name)

/-- The words for what is declared, in order. -/
def shape (s : Schema) : List String := s.declarations.map (·.kind)

/-- Counts the models, the enums, and the fields and values in them. -/
def stats (s : Schema) : Stats where
  models := s.models.length
  enums := s.enums.length
  fields := (s.models.flatMap (·.fields)).length
  values := (s.enums.flatMap (·.values)).length

/-- The counts of a schema in words. -/
def summary (s : Schema) : String :=
  let n := s.stats
  s!"Schema({n.models} models, {n.enums} enums, {n.fields} fields, {n.values} enum values)"

end Schema

end Pseudonym

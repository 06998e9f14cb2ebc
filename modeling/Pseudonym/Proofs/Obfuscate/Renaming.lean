/-
# Renaming the names of a schema

Names live in scopes: models and enums share one, and every model has one for
its keys and one for the relations it declares, every enum one for its values.
A renaming gives each scope a function on names. It is applied in two parts,
as an obfuscation does: first where names are declared, then where they are
referred to. A scope that belongs to a block is found under the block's old
name.
-/
import Pseudonym.Proofs.Obfuscate.Arguments

namespace Pseudonym

/-- New names, scope by scope. The scopes of a block are given by the block's name. -/
structure Renaming where
  /-- Models and enums. -/
  type : String → String
  /-- Fields of a model, and names of its unique keys. -/
  field : String → String → String
  /-- Values of an enum. -/
  value : String → String → String
  /-- Relations that a model declares. -/
  relation : String → String → String

/-- Different names stay different in every scope, and the built-in type is left alone. -/
structure Renaming.Injective (ρ : Renaming) : Prop where
  type : Function.Injective ρ.type
  builtin : ∀ name, ρ.type name = "Unsupported" ↔ name = "Unsupported"
  field : ∀ model, Function.Injective (ρ.field model)
  value : ∀ enum, Function.Injective (ρ.value enum)
  relation : ∀ model, Function.Injective (ρ.relation model)

/-- Different names stay different in every scope, and no other type takes the name of the built-in
one. What a schema declares under that name can be renamed too, since no type refers to it. -/
structure Renaming.Faithful (ρ : Renaming) : Prop where
  type : Function.Injective ρ.type
  builtin : ∀ name, ρ.type name = "Unsupported" → name = "Unsupported"
  field : ∀ model, Function.Injective (ρ.field model)
  value : ∀ enum, Function.Injective (ρ.value enum)
  relation : ∀ model, Function.Injective (ρ.relation model)

theorem Renaming.Injective.faithful {ρ : Renaming} (h : ρ.Injective) : ρ.Faithful :=
  ⟨h.type, fun name => (h.builtin name).mp, h.field, h.value, h.relation⟩

/-! ### Values -/

namespace Value

/-- Changes the text of a string. -/
def mapString (f : String → String) : Value → Value
  | .string text => .string (f text)
  | value => value

/-- Renames what a path of one segment names. -/
def renameItem (f : String → String) : Value → Value
  | .path [name] => .path [f name]
  | value => value

/-- Renames what the items of a list name. -/
def renameItems (f : String → String) : Value → Value
  | .array items => .array (items.map (renameItem f))
  | value => value

/-- Renames the constants in a default value. -/
def renameDefault (f : String → String) : Value → Value
  | .array items => .array (items.map (renameItem f))
  | value => value.renameItem f

end Value

/-- The scope of the block that a type names. A type that names none has no names in it. -/
def FieldType.scope (f : String → String → String) (type : FieldType) : String → String :=
  match type.reference? with
  | some ident => f ident.name
  | none => id

/-- Renames the model or enum that a type names. -/
def FieldType.rename (f : String → String) : FieldType → FieldType
  | .named ident =>
    if ident.name = "Unsupported" then .named ident else .named (ident.rename (f ident.name))
  | .scalar type => .scalar type
  | .unsupported text => .unsupported text

/-! ### Attributes -/

namespace Argument

/-- Changes the value of the first of some arguments. -/
def mapHead (f : Value → Value) : List Argument → List Argument
  | [] => []
  | a :: rest => a.mapValue f :: rest

/-- Whether an argument of `@@unique` gives the key a name. -/
def namesKey (a : Argument) : Bool := a.isNamed "name" || a.isNamed "map"

end Argument

namespace Attribute

/-- Changes the arguments of an attribute. -/
def mapArgs (f : List Argument → List Argument) (a : Attribute) : Attribute :=
  { a with args := f a.args }

/-- Renames the relation that an attribute of a field declares. -/
def renameDeclared (ρ : Renaming) (model : String) (a : Attribute) : Attribute :=
  if a.is "relation" && a.declaresRelation then
    a.mapArgs (Argument.mapFirst namesRelation (.mapString (ρ.relation model)))
  else a

/-- Renames the keys that an attribute of a model declares. -/
def renameKeys (ρ : Renaming) (model : String) (a : Attribute) : Attribute :=
  if a.is "unique" then
    a.mapArgs (.map fun arg =>
      if arg.namesKey then arg.mapValue (.mapString (ρ.field model)) else arg)
  else a

/-- Renames the fields in the two lists of a relation. -/
def renameListArgs (ρ : Renaming) (model : String) (type : FieldType) (args : List Argument) :
    List Argument :=
  Argument.mapFirst (·.isNamed "fields") (.renameItems (ρ.field model))
    (Argument.mapFirst (·.isNamed "references") (.renameItems (type.scope ρ.field)) args)

/-- Renames what the arguments of a relation refer to: the fields in the lists where it is
declared, else the relation itself. -/
def renameRelationArgs (ρ : Renaming) (model : String) (type : FieldType) (declares : Bool) :
    List Argument → List Argument :=
  if declares then renameListArgs ρ model type
  else Argument.mapFirst namesRelation (.mapString (type.scope ρ.relation))

/-- Renames what an attribute of a field of this type refers to. -/
def renameReferences (ρ : Renaming) (model : String) (type : FieldType) (a : Attribute) :
    Attribute :=
  if a.is "default" then a.mapArgs (Argument.mapHead (.renameDefault (type.scope ρ.value)))
  else if a.is "relation" then a.mapArgs (renameRelationArgs ρ model type a.declaresRelation)
  else a

/-- Renames the fields that an attribute of a model lists. -/
def renameLists (ρ : Renaming) (model : String) (a : Attribute) : Attribute :=
  if a.is "index" || a.is "id" then a.mapArgs (Argument.mapHead (.renameItems (ρ.field model)))
  else if a.is "unique" then a.mapArgs (.map (·.mapValue (.renameItems (ρ.field model))))
  else a

end Attribute

/-! ### Blocks -/

/-- Renames a field and the relations it declares. -/
def Field.renameDeclared (ρ : Renaming) (model : String) (f : Field) : Field :=
  { f with
    name := f.name.rename (ρ.field model f.name.name)
    attributes := f.attributes.map (·.renameDeclared ρ model) }

/-- Renames what a field refers to. -/
def Field.renameReferences (ρ : Renaming) (model : String) (f : Field) : Field :=
  { f with
    type := f.type.rename ρ.type
    attributes := f.attributes.map (·.renameReferences ρ model f.type) }

/-- Renames what a line of a model declares. -/
def ModelMember.renameDeclared (ρ : Renaming) (model : String) : ModelMember → ModelMember
  | .field f => .field (f.renameDeclared ρ model)
  | .blockAttribute a => .blockAttribute { a with attr := a.attr.renameKeys ρ model }
  | .comment c => .comment c

/-- Renames what a line of a model refers to. -/
def ModelMember.renameReferences (ρ : Renaming) (model : String) : ModelMember → ModelMember
  | .field f => .field (f.renameReferences ρ model)
  | .blockAttribute a => .blockAttribute { a with attr := a.attr.renameLists ρ model }
  | .comment c => .comment c

/-- Renames what the lines of a model refer to. The model's own name is what it was before
anything was renamed. -/
def Model.renameReferences (ρ : Renaming) (model : String) (m : Model) : Model :=
  { m with members := m.members.map (·.renameReferences ρ model) }

/-- Renames a model and everything in it. -/
def Model.rename (ρ : Renaming) (m : Model) : Model where
  name := m.name.rename (ρ.type m.name.name)
  members := m.members.map fun member =>
    (member.renameDeclared ρ m.name.name).renameReferences ρ m.name.name
  span := m.span

/-- Renames a value of an enum. -/
def EnumMember.rename (ρ : Renaming) (enum : String) : EnumMember → EnumMember
  | .value v => .value { v with name := v.name.rename (ρ.value enum v.name.name) }
  | .blockAttribute a => .blockAttribute a
  | .comment c => .comment c

/-- Renames an enum and its values. -/
def Enum.rename (ρ : Renaming) (e : Enum) : Enum :=
  { e with
    name := e.name.rename (ρ.type e.name.name)
    members := e.members.map (·.rename ρ e.name.name) }

/-- Renames a declaration. -/
def Declaration.rename (ρ : Renaming) : Declaration → Declaration
  | .config b => .config b
  | .model m => .model (m.rename ρ)
  | .enum e => .enum (e.rename ρ)
  | .comments b => .comments b

/-- Renames all names of a schema. -/
def Schema.rename (ρ : Renaming) (s : Schema) : Schema := ⟨s.declarations.map (·.rename ρ)⟩

end Pseudonym

/-
# Scopes

What the names in a schema can refer to, read off the schema alone. Models and
enums share one scope. The keys of a model are its fields and the names that
its unique keys have, which are used like names of fields. The relations of a
model are those that its fields declare: the ones that list fields or
references.

A reference has a place: the position of what it names in its scope. `places`
collects the places of all references of a schema, in the shape of the schema,
and forgets the names.
-/
import Pseudonym.Proofs.Obfuscate.Renaming

namespace Pseudonym

/-! ### Declared names -/

/-- The name that an argument of `@@unique` gives the key. -/
def Argument.keyName? (a : Argument) : Option String :=
  if a.namesKey then a.value.string? else none

namespace Attribute

/-- The names that an attribute of a model gives its keys. -/
def keyNames (a : Attribute) : List String :=
  if a.is "unique" then a.args.filterMap (·.keyName?) else []

/-- The relation that an attribute of a field declares. -/
def declaredRelation? (a : Attribute) : Option String :=
  if a.is "relation" && a.declaresRelation then a.relationName? else none

/-- The relation that an attribute of a field refers to by its name alone. -/
def bareRelation? (a : Attribute) : Option String :=
  if a.declaresRelation then none else a.relationName?

end Attribute

/-- The relations that a field declares. -/
def Field.relationNames (f : Field) : List String := f.attributes.filterMap (·.declaredRelation?)

namespace ModelMember

/-- The keys that a line of a model declares. -/
def keyNames : ModelMember → List String
  | .field f => [f.name.name]
  | .blockAttribute a => a.attr.keyNames
  | .comment _ => []

/-- The relations that a line of a model declares. -/
def relationNames : ModelMember → List String
  | .field f => f.relationNames
  | .blockAttribute _ => []
  | .comment _ => []

end ModelMember

namespace Model

/-- The names of the fields. -/
def fieldNames (m : Model) : List String := m.fields.map (·.name.name)

/-- The keys of a model: its fields, then the names of its unique keys. -/
def keyNames (m : Model) : List String := m.fieldNames ++ m.attributes.flatMap (·.keyNames)

/-- The relations that a model declares. -/
def relationNames (m : Model) : List String := m.members.flatMap (·.relationNames)

end Model

/-- The names of the values. -/
def Enum.valueNames (e : Enum) : List String := e.values.map (·.name.name)

/-- The name of a model or an enum. -/
def Declaration.typeName? : Declaration → Option String
  | .model m => some m.name.name
  | .enum e => some e.name.name
  | .config _ => none
  | .comments _ => none

/-- The names of the models and enums, in the order of the text. -/
def Schema.typeNames (s : Schema) : List String := s.declarations.filterMap (·.typeName?)

/-! ### What a field points at -/

/-- The name of the model or enum that a type refers to. The bare word `Unsupported` refers to
none. -/
def FieldType.typeName? : FieldType → Option String
  | .named ident => if ident.name = "Unsupported" then none else some ident.name
  | .scalar _ => none
  | .unsupported _ => none

namespace Schema

/-- The model that a type refers to. -/
def modelOf (s : Schema) (type : FieldType) : Option Model := type.typeName?.bind s.model?

/-- The enum that a type refers to. -/
def enumOf (s : Schema) (type : FieldType) : Option Enum := type.typeName?.bind s.enum?

end Schema

/-- What the names around a field can refer to. -/
structure FieldScopes where
  /-- The keys of the field's own model. -/
  keys : List String
  /-- The keys and the relations of the model that the field points at. -/
  target : Option (List String × List String)
  /-- The values of the enum that the field points at. -/
  values : Option (List String)
  deriving DecidableEq, Repr

/-- The scopes around a field of this type in a model. -/
def Schema.scopesAt (s : Schema) (m : Model) (type : FieldType) : FieldScopes where
  keys := m.keyNames
  target := (s.modelOf type).map fun t => (t.keyNames, t.relationNames)
  values := (s.enumOf type).map (·.valueNames)

/-! ### Places -/

namespace Value

/-- The place of what a path of one segment names. -/
def place? (scope : List String) : Value → Option Nat
  | .path [name] => scope.idxOf? name
  | _ => none

/-- The places of what the items of a list name. -/
def listPlaces (scope : List String) : Value → List (Option Nat)
  | .array items => items.map (place? scope)
  | _ => []

/-- The places of the constants in a default value. -/
def defaultPlaces (scope : List String) : Value → List (Option Nat)
  | .array items => items.map (place? scope)
  | value => [value.place? scope]

end Value

namespace Attribute

/-- The places that an attribute of a field refers to: constants of an enum, the two lists of a
relation, or the relation that it names. -/
def places (sc : FieldScopes) (a : Attribute) : List (List (Option Nat)) :=
  if a.is "default" then [(a.firstArg?.map (·.defaultPlaces (sc.values.getD []))).getD []]
  else if a.is "relation" then
    [((a.arg? "fields").map (·.listPlaces sc.keys)).getD [],
      ((a.arg? "references").map (·.listPlaces ((sc.target.map (·.1)).getD []))).getD [],
      [a.bareRelation?.bind (((sc.target.map (·.2)).getD []).idxOf? ·)]]
  else []

/-- The places that an attribute of a model refers to. -/
def keyPlaces (keys : List String) (a : Attribute) : List (List (Option Nat)) :=
  if a.is "index" || a.is "id" then [(a.firstArg?.map (·.listPlaces keys)).getD []]
  else if a.is "unique" then a.args.map (·.value.listPlaces keys)
  else []

end Attribute

/-- The places that a line of a model refers to: for a field, the declaration that is its type
and what its attributes refer to. -/
inductive MemberPlaces where
  | field (type : Option Nat) (attributes : List (List (List (Option Nat))))
  | blockAttribute (lists : List (List (Option Nat)))
  | comment
  deriving DecidableEq, Repr

/-- The places that the lines of a declaration refer to. An enum only has its values. -/
inductive DeclarationPlaces where
  | model (members : List MemberPlaces)
  | enum (values : Nat)
  | config
  | comments
  deriving DecidableEq, Repr

namespace Schema

/-- The place of the declaration that a type names. -/
def typePlace? (s : Schema) (type : FieldType) : Option Nat :=
  type.typeName?.bind fun name => s.declarations.findIdx? (·.typeName? == some name)

/-- The places that a line of a model refers to. -/
def memberPlaces (s : Schema) (m : Model) : ModelMember → MemberPlaces
  | .field f => .field (s.typePlace? f.type) (f.attributes.map (·.places (s.scopesAt m f.type)))
  | .blockAttribute a => .blockAttribute (a.attr.keyPlaces m.keyNames)
  | .comment _ => .comment

/-- The places that a declaration refers to, line by line. -/
def declarationPlaces (s : Schema) : Declaration → DeclarationPlaces
  | .model m => .model (m.members.map (s.memberPlaces m))
  | .enum e => .enum e.valueNames.length
  | .config _ => .config
  | .comments _ => .comments

/-- The places that a schema refers to, declaration by declaration. -/
def places (s : Schema) : List DeclarationPlaces := s.declarations.map s.declarationPlaces

end Schema

end Pseudonym

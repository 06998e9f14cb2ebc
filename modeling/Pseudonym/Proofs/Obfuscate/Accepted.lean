/-
# Schemas that can be obfuscated

When a schema can be obfuscated, said without any registry: names are declared
once in their scope, attributes have a shape that is known, and references
name something that is declared, anywhere in the schema. Only the name of a
field is compared with what stands before it, because the name of a unique key
may repeat the name of a field, but not the other way round.
-/
import Pseudonym.Proofs.Schema.Scopes

namespace Pseudonym

/-! ### Values -/

/-- The types whose literal default values have a replacement. -/
def FieldType.takesLiteral : FieldType → Bool
  | .scalar .string => true
  | .scalar .int => true
  | .scalar .boolean => true
  | .scalar .json => true
  | _ => false

namespace Value

/-- The value is a name in the scope. -/
def Names (scope : List String) : Value → Prop
  | .path [name] => name ∈ scope
  | _ => False

/-- The value is a list of names in the scope. -/
def Lists (scope : List String) : Value → Prop
  | .array items => ∀ item ∈ items, item.Names scope
  | _ => False

/-- The value is a default for a field of this type: a call, a literal if the type takes one, or
a constant of the field's enum. -/
def SuitsItem (type : FieldType) (values : Option (List String)) : Value → Prop
  | .string _ | .int _ | .number _ | .boolean _ => type.takesLiteral = true
  | .path segments => (Value.path segments).Names (values.getD [])
  | .call _ _ => True
  | .array _ => False

/-- The value, or each of its items, is a default for a field of this type. -/
def SuitsDefault (type : FieldType) (values : Option (List String)) : Value → Prop
  | .array items => ∀ item ∈ items, item.SuitsItem type values
  | value => value.SuitsItem type values

end Value

/-! ### Attributes -/

namespace Attribute

/-- The arguments of the `@unique` of a field: all have names, and a `map` is a string. -/
def UniqueOnField (a : Attribute) : Prop :=
  ∀ arg ∈ a.args, arg.isPositional = false ∧
    (arg.isNamed "map" = true → arg.value.string?.isSome = true)

/-- The arguments of `@@unique`: those with a name are strings called `name` or `map`. -/
def UniqueOnModel (a : Attribute) : Prop :=
  ∀ arg ∈ a.args, arg.isPositional = true ∨
    (arg.namesKey = true ∧ arg.value.string?.isSome = true)

/-- The lists of fields in `@@unique`. -/
def UniqueLists (keys : List String) (a : Attribute) : Prop :=
  ∀ arg ∈ a.args, ∀ items, arg.value.array? = some items → arg.value.Lists keys

/-- The first argument is a list of keys. -/
def FirstLists (keys : List String) (a : Attribute) : Prop :=
  ∃ first rest, a.args = first :: rest ∧ first.value.Lists keys

/-- The second argument is a string called `map`. -/
def SecondNames (a : Attribute) : Prop :=
  ∃ first second rest, a.args = first :: second :: rest ∧ second.isNamed "map" = true ∧
    second.value.string?.isSome = true

/-- The first argument is a default for a field of this type. -/
def SuitsDefault (type : FieldType) (sc : FieldScopes) (a : Attribute) : Prop :=
  ∃ first rest, a.args = first :: rest ∧ first.value.SuitsDefault type sc.values

/-- Both lists of a relation are there: the references list keys of the model that the field
points at, the fields list keys of its own model. -/
def SuitsLists (sc : FieldScopes) (a : Attribute) : Prop :=
  ∃ target, sc.target = some target ∧
    (∃ v, a.arg? "references" = some v ∧ v.Lists target.1) ∧
      ∃ v, a.arg? "fields" = some v ∧ v.Lists sc.keys

/-- The relation is one that the other model declares, or has both of its lists. -/
def SuitsTarget (sc : FieldScopes) (a : Attribute) : Prop :=
  match a.bareRelation? with
  | some name => ∃ target, sc.target = some target ∧ name ∈ target.2
  | none => a.SuitsLists sc

/-- The arguments of `@relation`: there are some, and a `map` is a string. -/
def SuitsRelation (sc : FieldScopes) (a : Attribute) : Prop :=
  a.args ≠ [] ∧ (∀ v, a.arg? "map" = some v → v.string?.isSome = true) ∧ a.SuitsTarget sc

end Attribute

/-! ### Schemas -/

/-- The name of every field is new among the keys before it. -/
def Model.FieldsFresh (m : Model) : Prop :=
  ∀ before f after, m.members = before ++ .field f :: after →
    f.name.name ∉ before.flatMap (·.keyNames)

/-- The conditions under which a schema can be obfuscated. -/
structure Schema.Accepted (s : Schema) : Prop where
  types : s.typeNames.Nodup
  values : ∀ e ∈ s.enums, e.valueNames.Nodup
  fields : ∀ m ∈ s.models, m.FieldsFresh
  relations : ∀ m ∈ s.models, m.relationNames.Nodup
  uniqueOnField : ∀ m ∈ s.models, ∀ f ∈ m.fields, ∀ a ∈ f.attributes,
    a.is "unique" = true → a.UniqueOnField
  uniqueOnModel : ∀ m ∈ s.models, ∀ a ∈ m.attributes, a.is "unique" = true → a.UniqueOnModel
  fieldTypes : ∀ m ∈ s.models, ∀ f ∈ m.fields, ∀ name, f.type.typeName? = some name →
    name ∈ s.typeNames
  defaults : ∀ m ∈ s.models, ∀ f ∈ m.fields, ∀ a ∈ f.attributes,
    a.is "default" = true → a.SuitsDefault f.type (s.scopesAt m f.type)
  relationArgs : ∀ m ∈ s.models, ∀ f ∈ m.fields, ∀ a ∈ f.attributes,
    a.is "relation" = true → a.SuitsRelation (s.scopesAt m f.type)
  indexes : ∀ m ∈ s.models, ∀ a ∈ m.attributes,
    a.is "index" = true → a.FirstLists m.keyNames ∧ a.SecondNames
  ids : ∀ m ∈ s.models, ∀ a ∈ m.attributes, a.is "id" = true → a.FirstLists m.keyNames
  uniqueLists : ∀ m ∈ s.models, ∀ a ∈ m.attributes, a.is "unique" = true →
    a.UniqueLists m.keyNames

end Pseudonym

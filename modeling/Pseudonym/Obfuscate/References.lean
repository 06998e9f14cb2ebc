/-
# References

The second of two steps: every reference of a schema whose declarations have
their new names is resolved in the registry. Types of fields, the fields that
relations, indexes and keys list, the names of relations on the side that does
not declare them, and constants as default values are references. Other
default values give way to one that says nothing, and the names of indexes and
of foreign keys follow the new names.
-/
import Pseudonym.Obfuscate.Declarations

namespace Pseudonym

/-! ### Lists of fields -/

namespace Value

/-- Resolves an item of a list of fields. -/
def resolveItem (r : Registry) (sign model : String) : Value → Except Fault Value
  | .path [name] => do .ok (.path [← r.resolveField model name])
  | .path segments => Fault.malformed sign (.pathInList segments)
  | value => Fault.malformed sign (.strangeItem value.kind)

/-- Resolves a list of fields of a model. -/
def resolveFields (r : Registry) (sign model : String) : Value → Except Fault Value
  | .array items => do .ok (.array (← items.mapM (resolveItem r sign model)))
  | value => Fault.malformed sign (.notList value.kind)

end Value

/-! ### Default values -/

/-- The field that an attribute belongs to: the new names of its model and of itself, and its
type, a scalar type or the new name of a model or an enum. -/
structure FieldSite where
  model : String
  field : String
  type : FieldType
  deriving DecidableEq, Repr

namespace FieldSite

/-- The new name of the model or enum that the field points at. -/
def target? (site : FieldSite) : Option String := site.type.reference?.map (·.name)

/-- The literal that stands for every literal default of a type. -/
def placeholder? : ScalarType → Option Value
  | .string => some (.string "DEFAULT")
  | .int => some (.int 0)
  | .boolean => some (.boolean false)
  | .json => some (.string "[]")
  | _ => none

/-- What replaces a literal default value. -/
def literalDefault (site : FieldSite) : Except Fault Value :=
  match site.type.scalar?.bind placeholder? with
  | some value => .ok value
  | none => .error (.of (.unsupportedDefault site.field site.type.render))

/-- What replaces a default value that is a path: a constant of the field's enum. -/
def constantDefault (r : Registry) (site : FieldSite) (segments : List String) :
    Except Fault Value :=
  match site.target?.filter (r.isEnum ·) with
  | none => .error (.of (.inconsistentDefault site.field site.type.render))
  | some enum =>
    match segments with
    | [name] => do .ok (.path [← r.resolveValue enum name])
    | _ => Fault.malformed "@default" (.longPath site.field segments.length)

/-- What replaces a default value that is a call: on a time, the current time stands for any
expression of the database. -/
def callDefault (site : FieldSite) (name : String) (args : List Argument) : Value :=
  if name == "dbgenerated" && site.type.scalar? == some .dateTime then .call "now" []
  else .call name args

/-- What replaces an item of a default array. -/
def itemDefault (r : Registry) (site : FieldSite) : Value → Except Fault Value
  | .string _ | .int _ | .number _ | .boolean _ => site.literalDefault
  | .path segments => site.constantDefault r segments
  | .call name args => .ok (site.callDefault name args)
  | .array _ => Fault.malformed "@default" (.nestedArray site.field)

/-- What replaces a default value. -/
def default (r : Registry) (site : FieldSite) : Value → Except Fault Value
  | .array items => do .ok (.array (← items.mapM (site.itemDefault r)))
  | value => site.itemDefault r value

end FieldSite

/-! ### Attributes -/

namespace Attribute

/-- Gives the first argument of this name a value. -/
def updateArg (a : Attribute) (name : String) (value : Value) : Attribute :=
  { a with args := Argument.setFirst (·.isNamed name) value a.args }

/-- Resolves `@default`. -/
def resolveDefault (r : Registry) (site : FieldSite) (a : Attribute) : Except Fault Attribute :=
  match a.args with
  | [] => .error (a.fault "@default" (.noValue site.field))
  | first :: rest => Fault.locate a.span.line do
    .ok { a with args := { first with value := ← site.default r first.value } :: rest }

/-- Renames the foreign key of a relation after its field. -/
def renameForeignKey (site : FieldSite) (a : Attribute) : Except Fault Attribute :=
  match a.arg? "map" with
  | none => .ok a
  | some value =>
    match value.string? with
    | some _ => .ok (a.updateArg "map" (.string s!"{site.field}_mapped"))
    | none => .error (a.fault "@relation" (.notString "map" value.kind))

/-- Resolves one of the two lists of a relation, against the model whose fields it lists. -/
def resolveRelationList (r : Registry) (site : FieldSite) (name model : String) (a : Attribute) :
    Except Fault Attribute :=
  match a.arg? name with
  | none => .error (a.fault "@relation" (.missing name site.field))
  | some value => Fault.locate a.span.line do
    .ok (a.updateArg name (← value.resolveFields r "@relation" model))

/-- Resolves both lists of a relation. -/
def resolveRelationLists (r : Registry) (site : FieldSite) (a : Attribute) :
    Except Fault Attribute :=
  match site.target?.filter (r.isModel ·) with
  | none => .error (a.fault "@relation" (.notModel site.field))
  | some target => do
    let a ← a.resolveRelationList r site "references" target
    a.resolveRelationList r site "fields" site.model

/-- Resolves `@relation`. Without lists, its name is one that the other model declares. -/
def resolveRelation (r : Registry) (site : FieldSite) (a : Attribute) : Except Fault Attribute :=
  if a.args.isEmpty then .error (a.fault "@relation" (.noArgumentsOn site.field))
  else do
    let a ← a.renameForeignKey site
    if a.declaresRelation then a.resolveRelationLists r site
    else
      match a.relationName? with
      | some name => Fault.locate a.span.line do
        .ok (a.renameRelation (← r.resolveRelation (site.target?.getD "") name))
      | none => a.resolveRelationLists r site

/-- Resolves an attribute of a field. -/
def resolveOnField (r : Registry) (site : FieldSite) (a : Attribute) : Except Fault Attribute :=
  if a.is "default" then a.resolveDefault r site
  else if a.is "relation" then a.resolveRelation r site
  else .ok a

/-- Resolves the list of fields that is the first argument of an attribute of a model. -/
def resolveFirst (r : Registry) (sign model : String) (a : Attribute) : Except Fault Attribute :=
  match a.args with
  | [] => .error (a.fault sign .noArguments)
  | first :: rest => Fault.locate a.span.line do
    .ok { a with args := { first with value := ← first.value.resolveFields r sign model } :: rest }

/-- Names an index, whose name has to be its second argument. -/
def renameIndex (model : String) (number : Nat) (a : Attribute) : Except Fault Attribute :=
  match a.args with
  | fields :: second :: rest =>
    if second.isNamed "map" then
      match second.value.string? with
      | some _ =>
        .ok { a with args :=
          fields :: { second with value := .string s!"{model}_index_{number}" } :: rest }
      | none => .error (a.fault "@@index" (.notString "map" second.value.kind))
    else .error (a.fault "@@index" .noMapName)
  | _ => .error (a.fault "@@index" .noMapName)

/-- Resolves `@@index`, the index with this number in its model. -/
def resolveIndex (r : Registry) (model : String) (number : Nat) (a : Attribute) :
    Except Fault Attribute := do
  let a ← a.resolveFirst r "@@index" model
  a.renameIndex model number

/-- Resolves an argument of `@@unique`: every array is a list of fields. -/
def resolveKeyArg (r : Registry) (model : String) (arg : Argument) : Except Fault Argument :=
  match arg.value.array? with
  | some _ => do .ok { arg with value := ← arg.value.resolveFields r "@@unique" model }
  | none => .ok arg

/-- Resolves `@@unique`. -/
def resolveUnique (r : Registry) (model : String) (a : Attribute) : Except Fault Attribute :=
  Fault.locate a.span.line do .ok { a with args := ← a.args.mapM (resolveKeyArg r model) }

/-- Resolves an attribute of a model, where `number` indexes came before. -/
def resolveOnModel (r : Registry) (model : String) (number : Nat) (a : Attribute) :
    Except Fault Attribute :=
  if a.is "index" then a.resolveIndex r model number
  else if a.is "id" then a.resolveFirst r "@@id" model
  else if a.is "unique" then a.resolveUnique r model
  else .ok a

end Attribute

/-! ### Models -/

/-- Resolves the type of a field. The bare word `Unsupported` is not the name of a type that is
declared. -/
def FieldType.resolve (r : Registry) : FieldType → Except Fault FieldType
  | .named ident =>
    if ident.name == "Unsupported" then .ok (.named ident)
    else Fault.locate ident.span.line do
      .ok (.named (ident.rename (← r.resolveType ident.name)))
  | .scalar type => .ok (.scalar type)
  | .unsupported text => .ok (.unsupported text)

/-- Resolves the references of a field. -/
def Field.resolve (r : Registry) (model : String) (f : Field) : Except Fault Field := do
  let type ← f.type.resolve r
  let attributes ← f.attributes.mapM (·.resolveOnField r ⟨model, f.name.name, type⟩)
  .ok { f with type, attributes }

/-- Resolves the references on the lines of a model, where `number` indexes came before. -/
def ModelMember.resolveEach (r : Registry) (model : String) :
    Nat → List ModelMember → Except Fault (List ModelMember)
  | _, [] => .ok []
  | number, .field f :: rest => do
    let f ← f.resolve r model
    .ok (.field f :: (← resolveEach r model number rest))
  | number, .blockAttribute a :: rest => do
    let attr ← a.attr.resolveOnModel r model number
    let next := if a.attr.is "index" then number + 1 else number
    .ok (.blockAttribute { a with attr } :: (← resolveEach r model next rest))
  | number, .comment c :: rest => do
    .ok (.comment c :: (← resolveEach r model number rest))

/-- Resolves the references of a model. -/
def Model.resolve (r : Registry) (m : Model) : Except Fault Model := do
  .ok { m with members := ← ModelMember.resolveEach r m.name.name 0 m.members }

/-- Resolves the references of a declaration. Only models have any. -/
def Declaration.resolve (r : Registry) : Declaration → Except Fault Declaration
  | .model m => do .ok (.model (← m.resolve r))
  | .config b => .ok (.config b)
  | .enum e => .ok (.enum e)
  | .comments b => .ok (.comments b)

/-- Resolves the references of a schema. -/
def Schema.resolve (r : Registry) (s : Schema) : Except Fault Schema := do
  .ok { declarations := ← s.declarations.mapM (·.resolve r) }

end Pseudonym

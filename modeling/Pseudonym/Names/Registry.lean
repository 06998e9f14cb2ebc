/-
# The registry of names

The registry holds, for every name of a schema, the name that replaces it.
Models and enums share one space of names; fields belong to a model, values to
an enum, and the names of relations to the model that declares them. The
scopes of fields, values and relations are kept under the new names of their
owners. A new name is its kind and a number: that of a model or an enum is the
count of those before it, and every scope counts its own names, unless the
values of all enums are numbered through.

Registering changes the registry in place, step by step, and what a step has
changed stays changed if a later one fails. Resolving never changes it.
-/
import Pseudonym.Names.Fault
import Pseudonym.Names.Table

namespace Pseudonym

/-- How the values of enums are numbered. -/
inductive Numbering where
  /-- From zero in every enum. -/
  | perEnum
  /-- On and on through all enums. -/
  | global
  deriving DecidableEq, Repr

namespace Numbering

/-- Both of them, the usual one first. -/
def all : List Numbering := [.perEnum, .global]

/-- The word for a numbering. -/
def word : Numbering → String
  | .perEnum => "per-enum"
  | .global => "global"

/-- The numbering of a word. -/
def ofWord? (word : String) : Option Numbering := all.find? (·.word == word)

end Numbering

/-! ### New names -/

/-- The new name of the `i`-th model. -/
def modelName (i : Nat) : String := s!"model_name_{i}"

/-- The new name of the `i`-th enum. -/
def enumName (i : Nat) : String := s!"ENUM_{i}"

/-- The new name of the `i`-th field of a model. -/
def fieldName (i : Nat) : String := s!"field_{i}"

/-- The new name of a value of an enum with the number `i`. -/
def valueName (i : Nat) : String := s!"VALUE_{i}"

/-- The new name of the `i`-th relation that a model declares, after the model's new name. -/
def relationName (model : String) (i : Nat) : String := s!"{model}_relation_{i}"

/-! ### Scopes -/

/-- The names of one model or enum with what replaces them, and the number of the next one. -/
structure Scope where
  names : Table String
  next : Nat
  deriving DecidableEq, Repr

/-- A scope without names. -/
def Scope.empty : Scope := ⟨.empty, 0⟩

/-- What the names in a scope stand for. -/
inductive Shelf where
  | fields
  | values
  | relations
  deriving DecidableEq, Repr

namespace Shelf

/-- What a name stands for. -/
def noun : Shelf → Noun
  | .fields => .field
  | .values => .enumValue
  | .relations => .relation

/-- The new name with a number in the scope of an owner. -/
def newName (owner : String) (i : Nat) : Shelf → String
  | .fields => fieldName i
  | .values => valueName i
  | .relations => relationName owner i

end Shelf

/-- The names of a schema and what replaces them. -/
structure Registry where
  numbering : Numbering
  models : Table String
  fields : Table Scope
  enums : Table String
  values : Table Scope
  relations : Table Scope
  /-- How many environment variables were given a name. -/
  envVars : Nat
  /-- How many values of enums were given a number that counts through all enums. -/
  globalValues : Nat
  deriving DecidableEq, Repr

namespace Registry

/-- The registry before anything is registered. -/
def new (numbering : Numbering) : Registry :=
  ⟨numbering, .empty, .empty, .empty, .empty, .empty, 0, 0⟩

/-- The scopes of one kind, under the new names of their owners. -/
def scopes (r : Registry) : Shelf → Table Scope
  | .fields => r.fields
  | .values => r.values
  | .relations => r.relations

/-- Changes the scopes of one kind. -/
def mapScopes (r : Registry) (f : Table Scope → Table Scope) : Shelf → Registry
  | .fields => { r with fields := f r.fields }
  | .values => { r with values := f r.values }
  | .relations => { r with relations := f r.relations }

/-- Whether a model or an enum has this name. -/
def hasType (r : Registry) (name : String) : Bool := r.models.contains name || r.enums.contains name

/-- Whether a new name is that of a model. -/
def isModel (r : Registry) (new : String) : Bool := r.fields.contains new

/-- Whether a new name is that of an enum. -/
def isEnum (r : Registry) (new : String) : Bool := r.values.contains new

/-! ### Resolving -/

/-- What replaces the name of a model or an enum. -/
def resolveType (r : Registry) (name : String) : Except Fault String :=
  match (r.models.get? name).or (r.enums.get? name) with
  | some new => .ok new
  | none => .error (.of (.unresolved .modelOrEnum name none))

/-- What replaces a name in the scope of an owner. -/
def found (r : Registry) (shelf : Shelf) (owner name : String) : Option String :=
  ((r.scopes shelf).get? owner).bind (·.names.get? name)

/-- What replaces a name that is looked for in the scope of an owner. -/
def resolve (r : Registry) (shelf : Shelf) (owner name : String) : Except Fault String :=
  match r.found shelf owner name with
  | some new => .ok new
  | none => .error (.of (.unresolved shelf.noun name (some owner)))

/-- What replaces the name of a field. -/
def resolveField (r : Registry) (model name : String) : Except Fault String :=
  r.resolve .fields model name

/-- What replaces the name of a value. -/
def resolveValue (r : Registry) (enum name : String) : Except Fault String :=
  r.resolve .values enum name

/-- What replaces the name of a relation that a model declares. -/
def resolveRelation (r : Registry) (model name : String) : Except Fault String :=
  r.resolve .relations model name

/-! ### Registering -/

/-- Something done to a registry in place: what it has changed when it fails stays changed. -/
abbrev Step := ExceptT Fault (StateM Registry)

/-- The answer of a step, and the registry after it. -/
def perform {α : Type} (r : Registry) (x : Step α) : Except Fault α × Registry := x.run.run r

/-- The answer of a step that succeeds, with the registry after it. -/
def attempt {α : Type} (r : Registry) (x : Step α) : Except Fault (α × Registry) :=
  (r.perform x).1.map (·, (r.perform x).2)

/-- Fails for a name that a model or an enum has. -/
def checkType (noun : Noun) (name : String) : Step Unit := do
  if (← get).hasType name then throw (.of (.duplicate noun name none))

/-- Registers a model. -/
def registerModel (name : String) : Step String := do
  checkType .model name
  let new := modelName (← get).models.size
  modify fun r => { r with models := r.models.set name new }
  modify fun r => { r with fields := r.fields.set new .empty }
  return new

/-- Registers an enum. -/
def registerEnum (name : String) : Step String := do
  checkType .enum name
  let new := enumName (← get).enums.size
  modify fun r => { r with enums := r.enums.set name new }
  modify fun r => { r with values := r.values.set new .empty }
  return new

/-- The next number of a scope, which is used up by that. -/
def allocate (shelf : Shelf) (owner : String) : Step Nat := do
  let scope := (((← get).scopes shelf).get? owner).getD .empty
  modify (·.mapScopes (·.change owner fun s => { s with next := s.next + 1 }) shelf)
  return scope.next

/-- The number of the next value of an enum, which is used up by that. -/
def allocateValue (enum : String) : Step Nat := do
  match (← get).numbering with
  | .perEnum => allocate .values enum
  | .global =>
    let next := (← get).globalValues
    modify fun r => { r with globalValues := r.globalValues + 1 }
    return next

/-- Puts a name into the scope of an owner with the number that is taken for it, unless the name
is there. -/
def enroll (shelf : Shelf) (owner name : String) (number : Step Nat) : Step String := do
  if ((← get).found shelf owner name).isSome then
    throw (.of (.duplicate shelf.noun name (some owner)))
  let new := shelf.newName owner (← number)
  modify (·.mapScopes (·.change owner fun s => { s with names := s.names.set name new }) shelf)
  return new

/-- Registers a field of a model. -/
def registerField (model name : String) : Step String := do
  unless (← get).isModel model do throw (.of (.unresolved .model model none))
  enroll .fields model name (allocate .fields model)

/-- Registers a value of an enum. -/
def registerValue (enum name : String) : Step String := do
  unless (← get).isEnum enum do throw (.of (.unresolved .enum enum none))
  enroll .values enum name (allocateValue enum)

/-- Registers the name of a relation with the model that declares it. The scope of the model is
put in before anything else is looked at. -/
def registerRelation (model name : String) : Step String := do
  unless (← get).isModel model do throw (.of (.unresolved .model model none))
  modify fun r => { r with relations := r.relations.ensure model .empty }
  enroll .relations model name (allocate .relations model)

/-- What replaces the name of a field, which is registered first if it is not known. -/
def ensureField (model name : String) : Step String := do
  match (← get).resolveField model name with
  | .ok new => return new
  | .error _ => registerField model name

/-- The name of the `n`-th environment variable. -/
def envName (n : Nat) : String := s!"ENV_{n}"

/-- Names one more environment variable. -/
def registerEnvVar : Step String := do
  let new := envName (← get).envVars
  modify fun r => { r with envVars := r.envVars + 1 }
  return new

/-! ### Calls -/

/-- A call on a registry. -/
inductive Call where
  | registerModel (name : String)
  | registerEnum (name : String)
  | registerField (model name : String)
  | ensureField (model name : String)
  | registerValue (enum name : String)
  | registerRelation (model name : String)
  | registerEnvVar
  | resolveType (name : String)
  | resolveField (model name : String)
  | resolveValue (enum name : String)
  | resolveRelation (model name : String)
  | isModel (new : String)
  | isEnum (new : String)
  deriving DecidableEq, Repr

/-- What a call that succeeds gives. -/
inductive Reply where
  | name (new : String)
  | truth (b : Bool)
  deriving DecidableEq, Repr

/-- A question to a registry. -/
def ask {α : Type} (question : Registry → Except Fault α) : Step α := do
  match question (← get) with
  | .ok answer => return answer
  | .error e => throw e

/-- What a call does. -/
def Call.step : Call → Step Reply
  | .registerModel name => .name <$> Registry.registerModel name
  | .registerEnum name => .name <$> Registry.registerEnum name
  | .registerField model name => .name <$> Registry.registerField model name
  | .ensureField model name => .name <$> Registry.ensureField model name
  | .registerValue enum name => .name <$> Registry.registerValue enum name
  | .registerRelation model name => .name <$> Registry.registerRelation model name
  | .registerEnvVar => .name <$> Registry.registerEnvVar
  | .resolveType name => .name <$> ask (·.resolveType name)
  | .resolveField model name => .name <$> ask (·.resolveField model name)
  | .resolveValue enum name => .name <$> ask (·.resolveValue enum name)
  | .resolveRelation model name => .name <$> ask (·.resolveRelation model name)
  | .isModel new => do return .truth ((← get).isModel new)
  | .isEnum new => do return .truth ((← get).isEnum new)

/-- Answers a call, and gives the registry after it, whether it fails or not. -/
def call (r : Registry) (c : Call) : Except Fault Reply × Registry := r.perform c.step

end Registry

end Pseudonym

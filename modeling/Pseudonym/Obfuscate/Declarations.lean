/-
# Declarations

The first of two steps: every declaration of a schema is registered, in the
order of the text, and takes its new name. Environment variables are named on
the way, comments lose their texts, and the names of unique keys follow the
new names of model and field. References stay as they are, since they may
point further down.
-/
import Pseudonym.Obfuscate.Environment
import Pseudonym.Schema.Basic

namespace Pseudonym

/-- A step that registers names and may fail. -/
abbrev Naming := StateT Registry (Except Fault)

namespace Naming

/-- A registration, for which the fault of a failure is on this line. -/
def register (line : Nat) (step : Registry.Step String) : Naming String :=
  fun r => Fault.locate line (r.attempt step)

/-- Names environment variables. -/
def numberEnv {α : Type} (f : Nat → α × Nat) : Naming α := fun r =>
  let (a, n) := f r.envVars
  .ok (a, { r with envVars := n })

/-- A step that registers nothing. -/
def ofExcept {α : Type} : Except Fault α → Naming α
  | .ok a => pure a
  | .error e => throw e

end Naming

/-! ### Attributes -/

/-- Gives the first argument with a property this value. -/
def Argument.setFirst (holds : Argument → Bool) (value : Value) : List Argument → List Argument
  | [] => []
  | a :: rest => if holds a then { a with value } :: rest else a :: setFirst holds value rest

namespace Attribute

/-- Whether an argument names a relation: a string, positional or called `name`. -/
def namesRelation (a : Argument) : Bool :=
  (a.isPositional || a.isNamed "name") && a.value.string?.isSome

/-- The name of a relation. -/
def relationName? (a : Attribute) : Option String :=
  (a.args.find? namesRelation).bind (·.value.string?)

/-- The attribute with another name for its relation. -/
def renameRelation (a : Attribute) (name : String) : Attribute :=
  { a with args := Argument.setFirst namesRelation (.string name) a.args }

/-- The side of a relation that lists fields or references declares it. -/
def declaresRelation (a : Attribute) : Bool := a.hasArg "fields" || a.hasArg "references"

/-- Registers the name of a relation where it is declared. -/
def declareRelation (model : String) (a : Attribute) : Naming Attribute :=
  if a.declaresRelation then
    match a.relationName? with
    | none => pure a
    | some name => do
      let new ← .register a.span.line (Registry.registerRelation model name)
      pure (a.renameRelation new)
  else pure a

/-- The name of the unique key of a field. A point between the parts is kept. -/
def uniqueKeyName (model field old : String) : String :=
  if old.toList.contains '.' then s!"{model}.{field}_unique" else s!"{model}_{field}_unique"

/-- Renames the key in one argument of `@unique`. -/
def renameKey (model field : String) (a : Argument) : Except Defect Argument :=
  match a.name with
  | none => .error (.positional a.value.kind)
  | some name =>
    if name.name == "map" then
      match a.value.string? with
      | some old => .ok { a with value := .string (uniqueKeyName model field old) }
      | none => .error (.notString "map" a.value.kind)
    else .ok a

/-- The fault of a malformed attribute. -/
def fault (a : Attribute) (sign : String) (defect : Defect) : Fault :=
  ⟨.malformed sign defect, some a.span.line⟩

/-- Renames the key of `@unique` after its model and field. -/
def declareUnique (model field : String) (a : Attribute) : Except Fault Attribute :=
  match a.args.mapM (renameKey model field) with
  | .ok args => .ok { a with args }
  | .error defect => .error (a.fault "@unique" defect)

/-- The declarations in an attribute of a field. -/
def declareOnField (model field : String) (a : Attribute) : Naming Attribute := do
  let a ← .numberEnv (a.numberEnv ·)
  if a.is "relation" then a.declareRelation model
  else if a.is "unique" then .ofExcept (a.declareUnique model field)
  else pure a

/-- A name in `@@unique` acts as the name of a field. -/
def declareShorthand (model : String) (a : Attribute) (arg : Argument) : Naming Argument :=
  match arg.name with
  | none => pure arg
  | some name =>
    if name.name == "name" || name.name == "map" then
      match arg.value.string? with
      | none => throw (a.fault "@@unique" (.notString name.name arg.value.kind))
      | some old => do
        let new ← .register a.span.line (Registry.ensureField model old)
        pure { arg with value := .string new }
    else throw (a.fault "@@unique" (.strangeName name.name))

/-- The declarations in an attribute of a model. -/
def declareOnModel (model : String) (a : Attribute) : Naming Attribute := do
  let a ← .numberEnv (a.numberEnv ·)
  if a.is "unique" then
    let args ← a.args.mapM (a.declareShorthand model)
    pure { a with args }
  else pure a

end Attribute

/-! ### Blocks -/

/-- Declares a field. -/
def Field.declare (model : String) (f : Field) : Naming Field := do
  let new ← .register f.name.span.line (Registry.registerField model f.name.name)
  let attributes ← f.attributes.mapM (·.declareOnField model new)
  pure { f with name := f.name.rename new, attributes, comment := f.comment.map (·.cleared) }

/-- The declarations on a line of a model. -/
def ModelMember.declare (model : String) : ModelMember → Naming ModelMember
  | .field f => .field <$> f.declare model
  | .blockAttribute a => do
    let attr ← a.attr.declareOnModel model
    pure (.blockAttribute ⟨attr, a.comment.map (·.cleared)⟩)
  | .comment c => pure (.comment c.cleared)

/-- Declares a model. -/
def Model.declare (m : Model) : Naming Model := do
  let new ← .register m.name.span.line (Registry.registerModel m.name.name)
  let members ← m.members.mapM (·.declare new)
  pure { m with name := m.name.rename new, members }

/-- Declares a value of an enum. -/
def EnumValue.declare (enum : String) (v : EnumValue) : Naming EnumValue := do
  let new ← .register v.name.span.line (Registry.registerValue enum v.name.name)
  let attributes ← v.attributes.mapM fun a => .numberEnv (a.numberEnv ·)
  pure { v with name := v.name.rename new, attributes, comment := v.comment.map (·.cleared) }

/-- The declarations on a line of an enum. -/
def EnumMember.declare (enum : String) : EnumMember → Naming EnumMember
  | .value v => .value <$> v.declare enum
  | .blockAttribute a => do
    let attr ← .numberEnv (a.attr.numberEnv ·)
    pure (.blockAttribute ⟨attr, a.comment.map (·.cleared)⟩)
  | .comment c => pure (.comment c.cleared)

/-- Declares an enum. -/
def Enum.declare (e : Enum) : Naming Enum := do
  let new ← .register e.name.span.line (Registry.registerEnum e.name.name)
  let members ← e.members.mapM (·.declare new)
  pure { e with name := e.name.rename new, members }

/-- The environment variables on a line of a block of configuration. -/
def ConfigMember.declare : ConfigMember → Naming ConfigMember
  | .property p => do
    let value ← .numberEnv (p.value.numberEnv ·)
    pure (.property { p with value, comment := p.comment.map (·.cleared) })
  | .comment c => pure (.comment c.cleared)

/-- The environment variables of a block of configuration, whose names stay. -/
def ConfigBlock.declare (b : ConfigBlock) : Naming ConfigBlock := do
  let members ← b.members.mapM (·.declare)
  pure { b with members }

/-- Declares what a declaration declares. Comments outside blocks are dropped. -/
def Declaration.declare : Declaration → Naming Declaration
  | .config b => .config <$> b.declare
  | .model m => .model <$> m.declare
  | .enum e => .enum <$> e.declare
  | .comments b => pure (.comments { b with comments := [] })

/-- Registers and renames everything that a schema declares. -/
def Schema.declare (s : Schema) : Naming Schema := do
  let declarations ← s.declarations.mapM (·.declare)
  pure { declarations }

end Pseudonym

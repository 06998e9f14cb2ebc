/-
# Faults

Why a schema cannot be obfuscated: a name declared twice, a name never
declared, an attribute of a shape that is not supported, or a default value
that has no replacement. A fault carries the line it was found on, once that
is known; the first line given stays. Every cause has a code, and some have a
word of help.
-/
import Pseudonym.Schema.Value

namespace Pseudonym

/-- What a name stands for. -/
inductive Noun where
  | model
  | enum
  | field
  | enumValue
  | relation
  | modelOrEnum
  | other (word : String)
  deriving DecidableEq, Repr

/-- The word for what a name stands for. -/
def Noun.word : Noun → String
  | .model => "model"
  | .enum => "enum"
  | .field => "field"
  | .enumValue => "enum value"
  | .relation => "relation"
  | .modelOrEnum => "model or enum"
  | .other word => word

/-- What is wrong with the arguments of an attribute. -/
inductive Defect where
  /-- An argument without a name where each needs one. -/
  | positional (kind : ValueKind)
  /-- An argument of a name that is not known there. -/
  | strangeName (name : String)
  /-- A named argument that has to be a string. -/
  | notString (name : String) (kind : ValueKind)
  /-- No default value. -/
  | noValue (field : String)
  /-- A default value that has to be one name. -/
  | longPath (field : String) (length : Nat)
  /-- An array inside a default array. -/
  | nestedArray (field : String)
  /-- An attribute of a block without arguments. -/
  | noArguments
  /-- An attribute of a field without arguments. -/
  | noArgumentsOn (field : String)
  /-- A relation to something else than a model. -/
  | notModel (field : String)
  /-- A relation without one of its two lists. -/
  | missing (name field : String)
  /-- An index without a name. -/
  | noMapName
  /-- Something else than a list of fields. -/
  | notList (kind : ValueKind)
  /-- A path in a list of fields that is not one name. -/
  | pathInList (segments : List String)
  /-- Something else than a path in a list of fields. -/
  | strangeItem (kind : ValueKind)
  | other (text : String)
  deriving DecidableEq, Repr

/-- A defect in words. -/
def Defect.message : Defect → String
  | .positional kind => s!"unexpected positional argument of kind '{kind.word}'"
  | .strangeName name => s!"unexpected named argument '{name}'"
  | .notString name kind => s!"expected a string for `{name}`, found {kind.word}"
  | .noValue field => s!"no value for field '{field}'"
  | .longPath field length =>
    s!"expected a single enum value on field '{field}', found a path of length {length}"
  | .nestedArray field => s!"nested array on field '{field}'"
  | .noArguments => "no arguments"
  | .noArgumentsOn field => s!"no arguments on field '{field}'"
  | .notModel field => s!"field '{field}' does not point at a model"
  | .missing name field => s!"missing `{name}` on field '{field}'"
  | .noMapName => "expected a `map` name as the second argument"
  | .notList kind => s!"expected a list of field names, found {kind.word}"
  | .pathInList segments => "expected a field name, found path '" ++ ".".intercalate segments ++ "'"
  | .strangeItem kind => s!"expected a field name, found {kind.word}"
  | .other text => text

/-- Why a schema cannot be obfuscated. -/
inductive Cause where
  /-- A name was declared twice where it must be unique. -/
  | duplicate (noun : Noun) (name : String) (scope : Option String)
  /-- A name was never declared. -/
  | unresolved (noun : Noun) (name : String) (scope : Option String)
  /-- The arguments of an attribute do not have a supported shape. -/
  | malformed (attr : String) (defect : Defect)
  /-- A literal default on a type without a replacement value. -/
  | unsupportedDefault (field type : String)
  /-- A constant as the default of a field that is not of an enum. -/
  | inconsistentDefault (field type : String)
  deriving DecidableEq, Repr

/-- The scope of a name in words. -/
def inScope : Option String → String
  | none => ""
  | some scope => s!" in '{scope}'"

/-- A cause in words, without its line. -/
def Cause.message : Cause → String
  | .duplicate noun name scope => s!"duplicate {noun.word} '{name}'" ++ inScope scope
  | .unresolved noun name scope =>
    s!"failed to find replacement name for {noun.word} '{name}'" ++ inScope scope
  | .malformed attr defect => s!"malformed {attr}: {defect.message}"
  | .unsupportedDefault field type =>
    s!"found default value for field '{field}' but have no replacement value for type '{type}'"
  | .inconsistentDefault field type =>
    s!"enum constant default on field '{field}' of non-enum type '{type}'"

/-- The code that a cause is reported under. -/
def Cause.code : Cause → String
  | .duplicate .. => "veil::obfuscate::duplicate_declaration"
  | .unresolved .. => "veil::obfuscate::unresolved_reference"
  | .malformed .. => "veil::obfuscate::malformed_attribute"
  | .unsupportedDefault .. => "veil::obfuscate::unsupported_default"
  | .inconsistentDefault .. => "veil::obfuscate::inconsistent_default"

/-- What to know about a cause. -/
def Cause.help? : Cause → Option String
  | .duplicate .. => some ("model and enum names share one namespace; " ++
      "field and value names must be unique within their block")
  | .unsupportedDefault .. =>
    some "literal defaults are only replaced on String, Int, Boolean and Json fields"
  | _ => none

/-- A cause, and the line it was found on. -/
structure Fault where
  cause : Cause
  line : Option Nat
  deriving DecidableEq, Repr

namespace Fault

/-- A fault whose line is not known yet. -/
def of (cause : Cause) : Fault := ⟨cause, none⟩

/-- Gives a fault its line, unless it has one. -/
def atLine (f : Fault) (line : Nat) : Fault := { f with line := some (f.line.getD line) }

/-- Puts the fault of a failure on a line, unless it has one. -/
def locate {α : Type} (line : Nat) (e : Except Fault α) : Except Fault α :=
  e.mapError (·.atLine line)

/-- The failure of a malformed attribute, on no line yet. -/
def malformed {α : Type} (sign : String) (defect : Defect) : Except Fault α :=
  .error (of (.malformed sign defect))

/-- A fault in words. -/
def message (f : Fault) : String :=
  match f.line with
  | none => f.cause.message
  | some line => f.cause.message ++ s!" at line {line}"

end Fault

end Pseudonym

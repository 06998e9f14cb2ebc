/-
# Values, arguments and attributes

The values that stand behind a property's equals sign and between the
parentheses of an attribute. A whole number is kept as a 64-bit integer where
it fits and as its digits otherwise, a string as the text between its quotes,
escapes included.
-/
import Pseudonym.Text.Place

namespace Pseudonym

/-- A name, and where it stands. -/
structure Ident where
  name : String
  span : Span
  deriving DecidableEq, Repr

/-- The same place under another name. -/
def Ident.rename (i : Ident) (name : String) : Ident := { i with name }

mutual

/-- A value. -/
inductive Value where
  /-- The text between the quotes. -/
  | string (text : String)
  /-- A whole number of 64 bits. -/
  | int (number : Int64)
  /-- Any other number, as it is written. -/
  | number (digits : String)
  | boolean (truth : Bool)
  /-- Names joined by points. -/
  | path (segments : List String)
  | call (name : String) (args : List Argument)
  | array (items : List Value)
  deriving Repr

/-- An argument of an attribute or a call: positional, or named. -/
structure Argument where
  name : Option Ident
  value : Value
  span : Span
  deriving Repr

end

/-- An attribute, `@name(...)` or `@@name(...)`. -/
structure Attribute where
  name : Ident
  args : List Argument
  span : Span
  deriving Repr

/-- The sorts of values that messages tell apart. -/
inductive ValueKind where
  | string
  | number
  | boolean
  | path
  | call
  | array
  deriving DecidableEq, Repr

/-- What a message calls a sort of values. -/
def ValueKind.word : ValueKind → String
  | .string => "string"
  | .number => "number"
  | .boolean => "boolean"
  | .path => "path"
  | .call => "function call"
  | .array => "array"

namespace Value

/-- The sort of a value. -/
def kind : Value → ValueKind
  | .string _ => .string
  | .int _ => .number
  | .number _ => .number
  | .boolean _ => .boolean
  | .path _ => .path
  | .call _ _ => .call
  | .array _ => .array

/-- Strings, numbers and booleans are literals. -/
def isLiteral : Value → Bool
  | .string _ => true
  | .int _ => true
  | .number _ => true
  | .boolean _ => true
  | _ => false

/-- The text of a string. -/
def string? : Value → Option String
  | .string text => some text
  | _ => none

/-- The number of a 64-bit integer. -/
def int? : Value → Option Int64
  | .int n => some n
  | _ => none

/-- The truth of a boolean. -/
def boolean? : Value → Option Bool
  | .boolean truth => some truth
  | _ => none

/-- The segments of a path. -/
def path? : Value → Option (List String)
  | .path segments => some segments
  | _ => none

/-- The name that a path of one segment is. -/
def name? : Value → Option String
  | .path [segment] => some segment
  | _ => none

/-- The name and the arguments of a call. -/
def call? : Value → Option (String × List Argument)
  | .call name args => some (name, args)
  | _ => none

/-- The items of an array. -/
def array? : Value → Option (List Value)
  | .array items => some items
  | _ => none

end Value

/-- The characters behind the last point. -/
def afterLastPoint (cs : List Char) : List Char :=
  (cs.reverse.takeWhile (· ≠ '.')).reverse

/-- The last segment of a dotted name. -/
def baseName (name : String) : String := .ofList (afterLastPoint name.toList)

namespace Argument

/-- Whether an argument has no name. -/
def isPositional (a : Argument) : Bool := a.name.isNone

/-- Whether an argument has this name. -/
def isNamed (a : Argument) (name : String) : Bool :=
  match a.name with
  | none => false
  | some ident => ident.name == name

end Argument

namespace Attribute

/-- Whether an attribute has this name. -/
def is (a : Attribute) (name : String) : Bool := a.name.name == name

/-- The value of the first argument. -/
def firstArg? (a : Attribute) : Option Value := a.args.head?.map (·.value)

/-- The value of the first argument without a name. -/
def firstPositional? (a : Attribute) : Option Value :=
  (a.args.find? (·.isPositional)).map (·.value)

/-- The value of the first argument with this name. -/
def arg? (a : Attribute) (name : String) : Option Value :=
  (a.args.find? (·.isNamed name)).map (·.value)

/-- Whether some argument has this name. -/
def hasArg (a : Attribute) (name : String) : Bool := a.args.any (·.isNamed name)

end Attribute

end Pseudonym

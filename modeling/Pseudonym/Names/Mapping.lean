/-
# The mapping and its text

The mapping is what a registry shows of itself: for every kind of names the
table of what replaces them, without the counters. As text it is a JSON object
with five members, indented by two spaces, whose entries stand in the order of
the tables.
-/
import Pseudonym.Names.Registry

namespace Pseudonym

/-- What replaces the names of a schema. -/
structure Mapping where
  models : Table String
  fields : Table (Table String)
  enums : Table String
  values : Table (Table String)
  relations : Table (Table String)
  deriving DecidableEq, Repr

/-- The names of a registry. -/
def Registry.mapping (r : Registry) : Mapping :=
  ⟨r.models, r.fields.map (·.names), r.enums, r.values.map (·.names), r.relations.map (·.names)⟩

/-! ### JSON -/

/-- The lower-case digit of a number below 16. -/
def hexDigit (n : Nat) : Char := Nat.digitChar n

/-- How a character is written inside a JSON string: quotes, backslashes and the control
characters below U+0020 are escaped, everything else stands for itself. -/
def escapeChar (c : Char) : List Char :=
  match c with
  | '"' => ['\\', '"']
  | '\\' => ['\\', '\\']
  | '\x08' => ['\\', 'b']
  | '\x0c' => ['\\', 'f']
  | '\n' => ['\\', 'n']
  | '\r' => ['\\', 'r']
  | '\t' => ['\\', 't']
  | c =>
    if c.toNat < 0x20 then ['\\', 'u', '0', '0', hexDigit (c.toNat / 16), hexDigit (c.toNat % 16)]
    else [c]

/-- A JSON string. -/
def quoted (text : String) : String :=
  "\"" ++ .ofList (text.toList.flatMap escapeChar) ++ "\""

/-- A JSON object whose members are written already, at a depth of indentation. -/
def jsonObject (depth : Nat) (members : List (String × String)) : String :=
  if members.isEmpty then "\x7b\x7d"
  else
    let inner := String.ofList (List.replicate (2 * (depth + 1)) ' ')
    let outer := String.ofList (List.replicate (2 * depth) ' ')
    "\x7b\n" ++ ",\n".intercalate (members.map fun m => inner ++ quoted m.1 ++ ": " ++ m.2) ++
      "\n" ++ outer ++ "\x7d"

/-- A table of names as JSON. -/
def Table.json (depth : Nat) (t : Table String) : String :=
  jsonObject depth (t.entries.map fun e => (e.1, quoted e.2))

/-- A table of tables of names as JSON. -/
def Table.nestedJson (depth : Nat) (t : Table (Table String)) : String :=
  jsonObject depth (t.entries.map fun e => (e.1, e.2.json (depth + 1)))

/-- A mapping as JSON. -/
def Mapping.json (m : Mapping) : String :=
  jsonObject 0
    [("models", m.models.json 1),
      ("fields", m.fields.nestedJson 1),
      ("enums", m.enums.json 1),
      ("enum_values", m.values.nestedJson 1),
      ("relations", m.relations.nestedJson 1)]

end Pseudonym

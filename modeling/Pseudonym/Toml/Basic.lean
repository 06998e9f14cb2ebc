/-
# TOML documents

A document is a table of items under their keys. It is put together line by
line: a header opens a table or adds one to an array of tables, and a key with
a value puts the value into the table that was opened last. A table that a
header opens is closed to later headers and to dotted keys from outside, a
table that only appeared on the way to another one may still be opened, and a
table that dotted keys made can only be filled by dotted keys.

Of numbers, booleans and dates nothing but their sort is kept: a setting is
never one of them.
-/

namespace Pseudonym
namespace Toml

/-- How a table came to be. -/
inductive Origin where
  /-- A header opened it. -/
  | header
  /-- The header of a table inside it implied it. -/
  | implied
  /-- Dotted keys made it. -/
  | dotted
  deriving DecidableEq, Repr

/-- What a key stands for. -/
inductive Item where
  | string (text : String)
  /-- A number or a boolean. -/
  | scalar
  /-- A date, a time, or both. -/
  | moment
  | array (items : List Item)
  /-- A table written inside braces. -/
  | inline (entries : List (String × Item))
  | table (origin : Origin) (entries : List (String × Item))
  | tables (elements : List (List (String × Item)))
  deriving Repr

/-- The entries of a table, in order. -/
abbrev Entries := List (String × Item)

namespace Entries

/-- Replaces what stands under a key. -/
def replace (entries : Entries) (key : String) (item : Item) : Entries :=
  entries.map fun e => if e.1 = key then (e.1, item) else e

/-- Changes the last element of an array of tables. -/
def updateLast? (f : Entries → Option Entries) (elements : List Entries) :
    Option (List Entries) := do
  let last ← elements.getLast?
  let last ← f last
  some (elements.dropLast ++ [last])

/-- Puts an item under a dotted key. The entries are those of a table of this origin, and
`inside` says whether dotted keys led there; only then may the table be one that dotted keys
made, and then it has to be. -/
def insert? (origin : Origin) (inside : Bool) : List String → Item → Entries → Option Entries
  | [], _, _ => none
  | [key], item, entries =>
    if (origin == .dotted) != inside then none
    else if (entries.lookup key).isSome then none
    else some (entries ++ [(key, item)])
  | key :: rest, item, entries =>
    match entries.lookup key with
    | none => do some (entries ++ [(key, .table .dotted (← insert? .dotted true rest item []))])
    | some (.table .header _) => none
    | some (.table made sub) => do
      some (entries.replace key (.table made (← insert? made true rest item sub)))
    | some (.tables elements) => do
      some (entries.replace key (.tables (← updateLast? (insert? .header true rest item) elements)))
    | some _ => none

/-- Changes the table at the path of a header. Tables on the way that do not exist yet are
implied; an array of tables stands for its last element. -/
def updateAt? (f : Origin → Entries → Option Entries) :
    List String → Origin → Entries → Option Entries
  | [], origin, entries => f origin entries
  | key :: path, _, entries =>
    match entries.lookup key with
    | none => do some (entries ++ [(key, .table .implied (← updateAt? f path .implied []))])
    | some (.table made sub) => do
      some (entries.replace key (.table made (← updateAt? f path made sub)))
    | some (.tables elements) => do
      some (entries.replace key (.tables (← updateLast? (updateAt? f path .header) elements)))
    | some _ => none

/-- Opens the table with this key. -/
def openTable? (key : String) (entries : Entries) : Option Entries :=
  match entries.lookup key with
  | none => some (entries ++ [(key, .table .header [])])
  | some (.table .implied sub) => some (entries.replace key (.table .header sub))
  | some _ => none

/-- Adds a table to the array of tables with this key. -/
def openArray? (key : String) (entries : Entries) : Option Entries :=
  match entries.lookup key with
  | none => some (entries ++ [(key, .tables [[]])])
  | some (.tables elements) => some (entries.replace key (.tables (elements ++ [[]])))
  | some _ => none

end Entries

end Toml
end Pseudonym

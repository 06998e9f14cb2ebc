/-
# Reading TOML

Values, and documents made of lines: headers, keys with values, and comments.
Arrays may run over several lines, inline tables may not. Arrays and inline
tables stand inside one another up to a limit of depth, which also ends the
recursion.
-/
import Pseudonym.Toml.Basic
import Pseudonym.Toml.Lexeme

namespace Pseudonym
namespace Toml

open Lexeme

/-- What reads a value. -/
abbrev ValueReader := List Char → Option (Item × List Char)

/-- The items of an array and its closing bracket. There are at most `n` items. -/
def arrayItems? (value : ValueReader) : Nat → List Char → Option (List Item × List Char)
  | 0, _ => none
  | n + 1, cs =>
    match skipLines cs.length cs with
    | ']' :: rest => some ([], rest)
    | cs => do
      let (item, rest) ← value cs
      match skipLines rest.length rest with
      | ',' :: rest => do
        let (items, rest) ← arrayItems? value n rest
        some (item :: items, rest)
      | ']' :: rest => some ([item], rest)
      | _ => none

/-- The keys of an inline table with their values, and its closing brace. At least one key
follows. There are at most `n` keys. -/
def inlineEntries? (value : ValueReader) :
    Nat → List Char → Option (List (List String × Item) × List Char)
  | 0, _ => none
  | n + 1, cs => do
    let (keys, rest) ← key? cs
    let (item, rest) ← value (skipSpace (← word? ['='] rest))
    match skipSpace rest with
    | ',' :: rest => do
      let (entries, rest) ← inlineEntries? value n rest
      some ((keys, item) :: entries, rest)
    | '\x7d' :: rest => some ([(keys, item)], rest)
    | _ => none

/-- An inline table behind its opening brace. -/
def inlineTable? (value : ValueReader) (cs : List Char) : Option (Item × List Char) :=
  match skipSpace cs with
  | '\x7d' :: rest => some (.inline [], rest)
  | _ => do
    let (pairs, rest) ← inlineEntries? value (cs.length + 1) cs
    let put (entries : Entries) (pair : List String × Item) : Option Entries :=
      Entries.insert? .header false pair.1 pair.2 entries
    let entries ← pairs.foldlM put []
    some (.inline entries, rest)

/-- A value without brackets or braces. -/
def flatValue? (cs : List Char) : Option (Item × List Char) :=
  match cs with
  | '"' :: _ | '\'' :: _ => (string? cs).map fun (text, rest) => (.string (.ofList text), rest)
  | 't' :: _ => (word? "true".toList cs).map (.scalar, ·)
  | 'f' :: _ => (word? "false".toList cs).map (.scalar, ·)
  | _ =>
    match moment? cs with
    | some rest => some (.moment, rest)
    | none => (number? cs).map (.scalar, ·)

/-- A value, with arrays and inline tables up to a depth. -/
def value? : Nat → ValueReader
  | 0, cs => flatValue? cs
  | depth + 1, cs =>
    match cs with
    | '[' :: rest => (arrayItems? (value? depth) cs.length rest).map fun (items, rest) =>
      (.array items, rest)
    | '\x7b' :: rest => inlineTable? (value? depth) rest
    | _ => flatValue? cs

/-- A document that is being read: its tables, and the path of the one opened last. -/
structure Draft where
  root : Entries
  current : List String
  deriving Repr

namespace Draft

/-- Puts a value under a key of the current table. -/
def insert? (d : Draft) (keys : List String) (item : Item) : Option Draft := do
  let root ← Entries.updateAt?
    (fun origin entries => Entries.insert? origin false keys item entries) d.current .header d.root
  some { d with root }

/-- Opens the table that a header names, by a way of opening. -/
def openAt? (d : Draft) (how : String → Entries → Option Entries) (keys : List String) :
    Option Draft := do
  let key ← keys.getLast?
  let root ← Entries.updateAt? (fun _ entries => how key entries) keys.dropLast .header d.root
  some ⟨root, keys⟩

end Draft

/-- The header of an array of tables, behind its first bracket. -/
def arrayHeader? (d : Draft) (cs : List Char) : Option (Draft × List Char) := do
  let (keys, rest) ← key? cs
  let rest ← lineTail? (← word? [']', ']'] rest)
  some (← d.openAt? Entries.openArray? keys, rest)

/-- The header of a table, behind its bracket. -/
def tableHeader? (d : Draft) (cs : List Char) : Option (Draft × List Char) := do
  let (keys, rest) ← key? cs
  let rest ← lineTail? (← word? [']'] rest)
  some (← d.openAt? Entries.openTable? keys, rest)

/-- A key with its value. -/
def keyValue? (d : Draft) (cs : List Char) : Option (Draft × List Char) := do
  let (keys, rest) ← key? cs
  let (item, rest) ← value? (depthLimit - 1) (skipSpace (← word? ['='] rest))
  let rest ← lineTail? rest
  some (← d.insert? keys item, rest)

/-- The lines of a document, at most `n` of them. -/
def lines? : Nat → Draft → List Char → Option Draft
  | 0, _, _ => none
  | n + 1, d, cs =>
    match skipSpace cs with
    | [] => some d
    | '#' :: rest => do lines? n d (← lineEnd? (skipComment ('#' :: rest)))
    | '[' :: '[' :: rest => do
      let (d, rest) ← arrayHeader? d rest
      lines? n d rest
    | '[' :: rest => do
      let (d, rest) ← tableHeader? d rest
      lines? n d rest
    | '\n' :: rest => lines? n d rest
    | '\r' :: '\n' :: rest => lines? n d rest
    | rest => do
      let (d, rest) ← keyValue? d rest
      lines? n d rest

/-- The text behind a byte order mark, if there is one. -/
def skipMark : List Char → List Char
  | '\uFEFF' :: cs => cs
  | cs => cs

/-- Reads a document. -/
def parse? (text : String) : Option Entries :=
  (lines? (text.length + 1) ⟨[], []⟩ (skipMark text.toList)).map (·.root)

end Toml
end Pseudonym

/-
# Settings

The settings of the command, read from a TOML text. Keys that are not known
are ignored. The table of settings may also be given as an array whose first
item is the numbering, and a word may be given as a table with the word as its
only key and nothing under it.
-/
import Pseudonym.Names.Registry
import Pseudonym.Toml.Parser

namespace Pseudonym

open Toml

/-- The settings of the command. -/
structure Settings where
  numbering : Numbering
  deriving DecidableEq, Repr

namespace Settings

/-- The settings where nothing is set. -/
def usual : Settings := ⟨.perEnum⟩

/-- Whether an item is an array or a table without anything in it. -/
def isEmptyItem : Item → Bool
  | .array items => items.isEmpty
  | .inline entries => entries.isEmpty
  | .table _ entries => entries.isEmpty
  | .tables elements => elements.isEmpty
  | _ => false

/-- The numbering that a table stands for. -/
def numberingOfTable? : Entries → Option Numbering
  | [(word, item)] => if isEmptyItem item then Numbering.ofWord? word else none
  | _ => none

/-- The numbering that an item stands for. -/
def numberingOf? : Item → Option Numbering
  | .string word => Numbering.ofWord? word
  | .inline entries => numberingOfTable? entries
  | .table _ entries => numberingOfTable? entries
  | _ => none

/-- The settings in a table. -/
def ofTable? (entries : Entries) : Option Settings :=
  match entries.lookup "enum_values" with
  | none => some usual
  | some item => (numberingOf? item).map (⟨·⟩)

/-- The settings that an item stands for. A date has no settings in it. -/
def ofItem? : Item → Option Settings
  | .inline entries => ofTable? entries
  | .table _ entries => ofTable? entries
  | .moment => some usual
  | .array [] => some usual
  | .array (item :: _) => (numberingOf? item).map (⟨·⟩)
  | .tables [] => some usual
  | .tables (entries :: _) => (numberingOfTable? entries).map (⟨·⟩)
  | .string _ => none
  | .scalar => none

/-- Reads settings from a TOML text. -/
def parse? (text : String) : Option Settings := do
  let root ← Toml.parse? text
  match root.lookup "obfuscation" with
  | none => some usual
  | some item => ofItem? item

end Settings

end Pseudonym

/-
# Status lines

How the command shows what it does, in the colours of a terminal. A status
line is a mark and a text; a line of its own kind has its own mark and colour.
A title is underlined, and below it stand pairs of a key and a value.
-/

namespace Pseudonym

/-- Something in a style that is switched on and off by codes. -/
def styled (on off : Nat) (text : String) : String :=
  "\x1b[" ++ toString on ++ "m" ++ text ++ "\x1b[" ++ toString off ++ "m"

/-- A text in one of the colours, which are numbered from 30. -/
def coloured (colour : Nat) (text : String) : String := styled colour 39 text

/-- A text in bold letters. -/
def bold (text : String) : String := styled 1 0 text

/-- A text in faint letters. -/
def faint (text : String) : String := styled 2 0 text

/-- The kinds of status lines. -/
inductive Status where
  | info
  | success
  | warning
  | error
  deriving DecidableEq, Repr

namespace Status

/-- The colour of a status. -/
def colour : Status → Nat
  | .info => 34
  | .success => 32
  | .warning => 33
  | .error => 31

/-- The mark of a status. -/
def mark : Status → String
  | .info => "ℹ"
  | .success => "✔"
  | .warning => "⚠"
  | .error => "✖"

/-- A text after its mark. All but mere information is coloured as a whole. -/
def line (s : Status) (text : String) : String :=
  bold (coloured s.colour s.mark) ++ " " ++
    (if s = .info then text else coloured s.colour text) ++ "\n"

end Status

/-- A title, underlined. -/
def heading (title : String) : String :=
  "\n" ++ coloured 36 (bold title) ++ "\n" ++ faint ("".pushn '─' title.length) ++ "\n\n"

/-- A key and its value. -/
def pair (key value : String) : String := "  " ++ faint key ++ ": " ++ value ++ "\n"

end Pseudonym

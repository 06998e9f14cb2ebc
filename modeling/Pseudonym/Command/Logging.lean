/-
# Logging

The settings of the log, as the environment asks for them. Words are compared
without regard to case. Every word that counts consists of ASCII letters other
than `k`, and no character outside ASCII has such a letter as its lower-case
form, so mapping ASCII letters is enough.
-/

namespace Pseudonym
namespace Logging

/-- A word in lower case. -/
def lowered (word : String) : String := .ofList (word.toList.map Char.toLower)

/-- Whether a setting asks for debugging. -/
def debugEnabled (setting : Option String) : Bool :=
  match setting with
  | none => false
  | some word => ["true", "1", "yes"].contains (lowered word)

/-- The level of the log: the one asked for if it exists, and else the usual one. -/
def level (setting : Option String) (debug : Bool) : String :=
  let usual := if debug then "debug" else "warn"
  match setting with
  | none => usual
  | some word =>
    if ["trace", "debug", "info", "warn", "error"].contains (lowered word) then lowered word
    else usual

/-- The format of the log. -/
def format (setting : Option String) : String :=
  match setting with
  | none => "compact"
  | some word =>
    if ["pretty", "json"].contains (lowered word) then lowered word else "compact"

end Logging
end Pseudonym

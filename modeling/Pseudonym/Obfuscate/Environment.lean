/-
# Environment variables

Every literal that is the first argument of a call of `env` becomes the name
of an environment variable, numbered in the order of the text. Calls inside
the arguments of a call come before the call itself. Only the number of the
next variable is carried along.
-/
import Pseudonym.Names.Registry

namespace Pseudonym

/-- Whether a call reads an environment variable. -/
def isEnvCall (name : String) : Bool := baseName name == "env"

mutual

/-- Names the environment variables in a value, the first one with number `n`. -/
def Value.numberEnv (n : Nat) : Value → Value × Nat
  | .call name args =>
    match Argument.numberEnvEach n args with
    | ([], m) => (.call name [], m)
    | (first :: rest, m) =>
      if isEnvCall name && first.value.isLiteral then
        (.call name ({ first with value := .string (Registry.envName m) } :: rest), m + 1)
      else (.call name (first :: rest), m)
  | .array items =>
    let (items, m) := Value.numberEnvEach n items
    (.array items, m)
  | .string text => (.string text, n)
  | .int number => (.int number, n)
  | .number digits => (.number digits, n)
  | .boolean truth => (.boolean truth, n)
  | .path segments => (.path segments, n)

/-- Names the environment variables in values one after the other. -/
def Value.numberEnvEach (n : Nat) : List Value → List Value × Nat
  | [] => ([], n)
  | value :: rest =>
    let (value, m) := value.numberEnv n
    let (rest, m) := Value.numberEnvEach m rest
    (value :: rest, m)

/-- Names the environment variables in arguments one after the other. -/
def Argument.numberEnvEach (n : Nat) : List Argument → List Argument × Nat
  | [] => ([], n)
  | ⟨name, value, span⟩ :: rest =>
    let (value, m) := value.numberEnv n
    let (rest, m) := Argument.numberEnvEach m rest
    (⟨name, value, span⟩ :: rest, m)

end

/-- Names the environment variables in the arguments of an attribute. -/
def Attribute.numberEnv (n : Nat) (a : Attribute) : Attribute × Nat :=
  let (args, m) := Argument.numberEnvEach n a.args
  ({ a with args }, m)

end Pseudonym

/-
# A survey of the grammar

Which rules may read nothing, in which order rules call one another before
anything is read, and with which characters each of them starts.
-/
import Pseudonym.Schema.Grammar
import Pseudonym.Proofs.Peg.Openings

namespace Pseudonym

open Peg

namespace Rule

/-- Whether a rule may read nothing. -/
def mayBeEmpty : Rule → Bool
  | .endOfText | .schema | .commentText | .stringContent => true
  | _ => false

/-- A rule calls only rules of lower rank before it has read anything. -/
def rank : Rule → Nat
  | .schema => 4
  | .argument => 4
  | .commentBlock | .configBlock | .configProperty | .modelDef | .enumDef | .enumValue | .fieldDef
  | .functionCall | .namedArgument => 3
  | .blockAttributeDef | .fieldType => 2
  | .path => 2
  | .identifier | .unsupportedType | .modelKeyword | .enumKeyword | .configKeyword
  | .blockAttribute | .docComment | .lineComment => 1
  | _ => 0

/-- The characters with which a name starts. -/
def nameOpenings : List Opening := [.among .letter, .exactly '_']

/-- The characters with which a value starts. -/
def valueOpenings : List Opening :=
  nameOpenings ++ [.exactly '[', .exactly '"', .exactly '-', .among .digit, .exactly 't',
    .exactly 'f']

/-- The characters with which a rule starts. -/
def openings : Rule → List Opening
  | .endOfText => []
  | .schema => [.exactly '\r', .exactly '\n', .exactly '/', .exactly 'd', .exactly 'g',
      .exactly 'm', .exactly 'e']
  | .docComment | .lineComment | .commentBlock => [.exactly '/']
  | .commentText => [.among .any]
  | .identifier | .path | .configProperty | .enumValue | .fieldDef | .namedArgument
  | .functionCall => nameOpenings
  | .modelKeyword | .modelDef => [.exactly 'm']
  | .enumKeyword | .enumDef => [.exactly 'e']
  | .configKeyword | .configBlock => [.exactly 'd', .exactly 'g']
  | .fieldType => .exactly 'U' :: nameOpenings
  | .unsupportedType => [.exactly 'U']
  | .listMarker | .array => [.exactly '[']
  | .optionalMarker => [.exactly '?']
  | .fieldAttribute | .blockAttribute | .blockAttributeDef => [.exactly '@']
  | .arguments => [.exactly '(']
  | .argument => valueOpenings
  | .stringLiteral => [.exactly '"']
  | .stringContent => [.exactly '\\', .among .any]
  | .number => [.exactly '-', .among .digit]
  | .boolean => [.exactly 't', .exactly 'f']

end Rule

/-- The grammar goes down in rank, and every repetition in it reads something. -/
def survey : Survey grammar where
  empty := Rule.mayBeEmpty
  rank := Rule.rank
  empty_body r := by cases r <;> decide
  rank_lt r := by cases r <;> decide
  rank_heads r := by cases r <;> decide
  steady r := by cases r <;> decide
  openings := Rule.openings
  openings_body r := by cases r <;> decide

end Pseudonym

/-
# The grammar of schemas

Spaces and tabs are blanks, line ends are not: they separate the members of a
block and may stand inside brackets. A name, a number, a keyword or the text
of a comment is read without blanks inside it, and so is a type with its
suffix or an attribute up to its arguments.
-/
import Pseudonym.Peg.Reading

namespace Pseudonym

open Peg

/-- The rules of the grammar. -/
inductive Rule where
  | endOfText
  | schema
  | docComment
  | lineComment
  | commentText
  | commentBlock
  | identifier
  | path
  | modelKeyword
  | enumKeyword
  | configKeyword
  | configBlock
  | configProperty
  | modelDef
  | enumDef
  | enumValue
  | fieldDef
  | fieldType
  | unsupportedType
  | listMarker
  | optionalMarker
  | fieldAttribute
  | blockAttribute
  | blockAttributeDef
  | arguments
  | argument
  | namedArgument
  | functionCall
  | array
  | stringLiteral
  | stringContent
  | number
  | boolean
  deriving DecidableEq, Repr

namespace Rule

/-- Every rule once, in the order in which messages list them. -/
def all : List Rule :=
  [.endOfText, .schema, .docComment, .lineComment, .commentText, .commentBlock, .identifier,
    .path, .modelKeyword, .enumKeyword, .configKeyword, .configBlock, .configProperty, .modelDef,
    .enumDef, .enumValue, .fieldDef, .fieldType, .unsupportedType, .listMarker, .optionalMarker,
    .fieldAttribute, .blockAttribute, .blockAttributeDef, .arguments, .argument, .namedArgument,
    .functionCall, .array, .stringLiteral, .stringContent, .number, .boolean]

/-- What messages call a rule. -/
def name : Rule → String
  | .endOfText => "EOI"
  | .schema => "schema"
  | .docComment => "doc_comment"
  | .lineComment => "line_comment"
  | .commentText => "comment_text"
  | .commentBlock => "comment_block"
  | .identifier => "identifier"
  | .path => "path"
  | .modelKeyword => "model_keyword"
  | .enumKeyword => "enum_keyword"
  | .configKeyword => "config_keyword"
  | .configBlock => "config_block"
  | .configProperty => "config_property"
  | .modelDef => "model_def"
  | .enumDef => "enum_def"
  | .enumValue => "enum_value"
  | .fieldDef => "field_def"
  | .fieldType => "field_type"
  | .unsupportedType => "unsupported_type"
  | .listMarker => "list_marker"
  | .optionalMarker => "optional_marker"
  | .fieldAttribute => "field_attribute"
  | .blockAttribute => "block_attribute"
  | .blockAttributeDef => "block_attribute_def"
  | .arguments => "arguments"
  | .argument => "argument"
  | .namedArgument => "named_argument"
  | .functionCall => "function_call"
  | .array => "array"
  | .stringLiteral => "string_literal"
  | .stringContent => "string_content"
  | .number => "number"
  | .boolean => "boolean"

end Rule

namespace Grammar

/-- A word. -/
def lit (w : String) : Expr Rule := .word w.toList

/-- Expressions one after the other. -/
def all : Expr Rule → List (Expr Rule) → Expr Rule
  | e, [] => e
  | e, f :: rest => .seq e (all f rest)

/-- The first expression that does not fail. -/
def first : Expr Rule → List (Expr Rule) → Expr Rule
  | e, [] => e
  | e, f :: rest => .alt e (first f rest)

/-- The end of a line. -/
def newline : Expr Rule := .alt (lit "\r\n") (lit "\n")

/-- Line ends, as many as there are. -/
def newlines : Expr Rule := .many newline

/-- A character that may go on a name. -/
def nameChar : Expr Rule := .alt (.one .alphanumeric) (lit "_")

/-- A comment. -/
def comment : Expr Rule := .alt (.call .docComment) (.call .lineComment)

/-- A comment at the end of a line, or none. -/
def trailingComment : Expr Rule := .opt comment

/-- A value. -/
def value : Expr Rule :=
  first (.call .functionCall)
    [.call .array, .call .stringLiteral, .call .number, .call .boolean, .call .path]

/-- Items between commas, with a comma behind the last one or without, and line ends
anywhere between them. There may be no items at all. -/
def items (item : Expr Rule) : Expr Rule :=
  .opt (all item
    [newlines,
      .many (all (lit ",") [newlines, item, newlines]),
      .opt (all (lit ",") [newlines])])

/-- A block: its keyword, its name, and its members between braces. -/
def block (keyword member : Expr Rule) : Expr Rule :=
  all keyword [.call .identifier, lit "\x7b", .many (.alt newline member), lit "\x7d"]

/-- A keyword is not the start of a longer name. -/
def keyword (words : Expr Rule) : Expr Rule := all words [.notAhead nameChar]

/-- Decimal digits, one at least. -/
def digits : Expr Rule := all (.one .digit) [.many (.one .digit)]

/-- How a rule treats blanks. -/
def kind : Rule → RuleKind
  | .docComment | .lineComment | .fieldType | .fieldAttribute | .blockAttribute
  | .functionCall | .stringLiteral => .compact
  | .commentText | .identifier | .path | .modelKeyword | .enumKeyword | .configKeyword
  | .stringContent | .number | .boolean => .atomic
  | .unsupportedType | .arguments => .spaced
  | .endOfText | .schema | .commentBlock | .configBlock | .configProperty | .modelDef | .enumDef
  | .enumValue | .fieldDef | .listMarker | .optionalMarker | .blockAttributeDef | .argument
  | .namedArgument | .array => .plain

/-- What a rule reads. -/
def body : Rule → Expr Rule
  | .endOfText => .finish
  | .schema =>
    all .start
      [.many (first newline
        [.call .commentBlock, .call .configBlock, .call .modelDef, .call .enumDef]),
      .call .endOfText]
  | .docComment => all (lit "///") [.call .commentText]
  | .lineComment => all (lit "//") [.call .commentText]
  | .commentText => .many (all (.notAhead newline) [.one .any])
  | .commentBlock => all comment [.many (all newline [comment])]
  | .identifier => all (.alt (.one .letter) (lit "_")) [.many nameChar]
  | .path => all (.call .identifier) [.many (all (lit ".") [.call .identifier])]
  | .modelKeyword => keyword (lit "model")
  | .enumKeyword => keyword (lit "enum")
  | .configKeyword => keyword (.alt (lit "datasource") (lit "generator"))
  | .configBlock => block (.call .configKeyword) (.alt (.call .configProperty) comment)
  | .configProperty => all (.call .identifier) [lit "=", value, trailingComment]
  | .modelDef =>
    block (.call .modelKeyword) (first (.call .blockAttributeDef) [.call .fieldDef, comment])
  | .enumDef =>
    block (.call .enumKeyword) (first (.call .blockAttributeDef) [.call .enumValue, comment])
  | .enumValue => all (.call .identifier) [.many (.call .fieldAttribute), trailingComment]
  | .fieldDef =>
    all (.call .identifier) [.call .fieldType, .many (.call .fieldAttribute), trailingComment]
  | .fieldType =>
    all (.alt (.call .unsupportedType) (.call .identifier))
      [.opt (.call .listMarker), .opt (.call .optionalMarker)]
  | .unsupportedType => all (lit "Unsupported") [lit "(", .call .stringLiteral, lit ")"]
  | .listMarker => lit "[]"
  | .optionalMarker => lit "?"
  | .fieldAttribute => all (lit "@") [.call .path, .opt (.call .arguments)]
  | .blockAttribute => all (lit "@@") [.call .path, .opt (.call .arguments)]
  | .blockAttributeDef => all (.call .blockAttribute) [trailingComment]
  | .arguments => all (lit "(") [newlines, items (.call .argument), lit ")"]
  | .argument => .alt (.call .namedArgument) value
  | .namedArgument => all (.call .identifier) [lit ":", value]
  | .functionCall => all (.call .path) [.call .arguments]
  | .array => all (lit "[") [newlines, items value, lit "]"]
  | .stringLiteral => all (lit "\"") [.call .stringContent, lit "\""]
  | .stringContent =>
    .many (.alt (all (lit "\\") [.one .any])
      (all (.notAhead (first (lit "\"") [lit "\\", newline])) [.one .any]))
  | .number => all (.opt (lit "-")) [digits, .opt (all (lit ".") [digits])]
  | .boolean => keyword (.alt (lit "true") (lit "false"))

end Grammar

/-- The grammar of schemas. -/
def grammar : Peg.Grammar Rule where
  blank c := c == ' ' || c == '\t'
  rules := Rule.all
  kind := Grammar.kind
  body := Grammar.body

end Pseudonym

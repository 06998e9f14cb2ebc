/-
# Reading schemas

The tree that the grammar yields, turned into a schema. Every node of the tree
that stands for a part of a schema becomes that part, with the node's span.

Trees are taken as they come, so a tree that no text yields may be refused;
the refusal covers the node that does not fit.
-/
import Pseudonym.Schema.Basic
import Pseudonym.Schema.SyntaxError
import Pseudonym.Text.Blank
import Pseudonym.Text.Numeral

namespace Pseudonym

/-- A node of the tree of a schema. -/
abbrev Tree := Peg.Node Rule

/-- The refusal of a node that lacks a part. -/
def SyntaxError.missing (span : Span) (part : String) : SyntaxError :=
  .ofSpan span ("expected " ++ part)

namespace Peg.Node

/-- The characters of a node as a string. -/
def string {R : Type} (n : Node R) : String := .ofList n.text

/-- The name that a node spells. -/
def ident {R : Type} (n : Node R) : Ident := ⟨n.string, n.span⟩

/-- The characters of the first of some nodes, or none. -/
def firstText {R : Type} : List (Node R) → List Char
  | [] => []
  | n :: _ => n.text

/-- Whether a node is a comment. -/
def isComment (n : Tree) : Bool := n.rule == .docComment || n.rule == .lineComment

/-- The comment that a node is. -/
def comment (n : Tree) : Comment where
  kind := if n.rule = .docComment then .doc else .line
  text := .ofList (trimBlanks (firstText n.children))
  span := n.span

/-- The last comment among some nodes. -/
def lastComment? (nodes : List Tree) : Option Comment :=
  (nodes.filter isComment).getLast?.map comment

end Peg.Node

/-! ### Values -/

/-- The value of a number: a 64-bit integer where it is one, and else its digits. -/
def Value.ofNumeral (digits : List Char) : Value :=
  match (wholeNumber? digits).bind int64? with
  | some n => .int n
  | none => .number (.ofList digits)

mutual

/-- The value that a node is. -/
def Value.ofNode : Tree → Except SyntaxError Value
  | ⟨rule, span, text, children⟩ =>
    match rule with
    | .stringLiteral => .ok (.string (.ofList (Peg.Node.firstText children)))
    | .number => .ok (.ofNumeral text)
    | .boolean => .ok (.boolean (text == "true".toList))
    | .path => .ok (.path ((text.splitOn '.').map .ofList))
    | .functionCall =>
      match children with
      | [] => .error (.missing span "function name")
      | [name] => .ok (.call name.string [])
      | name :: args :: _ => do .ok (.call name.string (← Argument.listOfNode args))
    | .array => do .ok (.array (← Value.listOfNodes children))
    | _ => .error (.ofSpan span ("unexpected " ++ rule.name))

/-- The values that some nodes are. -/
def Value.listOfNodes : List Tree → Except SyntaxError (List Value)
  | [] => .ok []
  | n :: rest => do
    let value ← Value.ofNode n
    .ok (value :: (← Value.listOfNodes rest))

/-- The argument that a node is. -/
def Argument.ofNode : Tree → Except SyntaxError Argument
  | ⟨_, span, _, children⟩ =>
    match children with
    | [] => .error (.missing span "argument")
    | ⟨.namedArgument, _, _, parts⟩ :: _ =>
      match parts with
      | [] => .error (.missing span "argument name")
      | [_] => .error (.missing span "argument value")
      | name :: value :: _ => do .ok ⟨some name.ident, ← Value.ofNode value, span⟩
    | value :: _ => do .ok ⟨none, ← Value.ofNode value, span⟩

/-- The arguments among some nodes. -/
def Argument.listOfNodes : List Tree → Except SyntaxError (List Argument)
  | [] => .ok []
  | n :: rest =>
    if n.rule = .argument then do
      let arg ← Argument.ofNode n
      .ok (arg :: (← Argument.listOfNodes rest))
    else Argument.listOfNodes rest

/-- The arguments between the parentheses that a node is. -/
def Argument.listOfNode : Tree → Except SyntaxError (List Argument)
  | ⟨_, _, _, children⟩ => Argument.listOfNodes children

end

/-- Reads a value from the start of a text, and gives the rest of the text. -/
def Value.read? (text : List Char) : Option (Value × List Char) :=
  match (grammar.run (.expr Grammar.value) ⟨.spaced, .consuming⟩ (.ofText text) .none).result with
  | some (c, n :: _) => (Value.ofNode n).toOption.map (·, c.rest)
  | _ => none

/-- The attribute that a node is. -/
def Attribute.ofNode (n : Tree) : Except SyntaxError Attribute :=
  match n.children with
  | [] => .error (.missing n.span "attribute name")
  | [name] => .ok ⟨name.ident, [], n.span⟩
  | name :: args :: _ => do .ok ⟨name.ident, ← Argument.listOfNode args, n.span⟩

/-- The attributes among some nodes. -/
def Attribute.listOfNodes (nodes : List Tree) : Except SyntaxError (List Attribute) :=
  (nodes.filter (·.rule = .fieldAttribute)).mapM Attribute.ofNode

/-! ### Fields -/

/-- The type that a node is, if it is one. -/
def FieldType.ofNode? (n : Tree) : Option FieldType :=
  match n.rule with
  | .identifier =>
    match ScalarType.ofWord? n.string with
    | some type => some (.scalar type)
    | none => some (.named n.ident)
  | .unsupportedType =>
    match n.children with
    | [] => some (.unsupported "")
    | literal :: _ => some (.unsupported (.ofList (Peg.Node.firstText literal.children)))
  | _ => none

/-- The modifier that markers behind a type make. -/
def TypeModifier.ofNodes (nodes : List Tree) : TypeModifier :=
  match nodes.any (·.rule = .listMarker), nodes.any (·.rule = .optionalMarker) with
  | false, false => .required
  | false, true => .optional
  | true, false => .list
  | true, true => .optionalList

/-- The field that a node is. -/
def Field.ofNode (n : Tree) : Except SyntaxError Field :=
  match n.children with
  | [] => .error (.missing n.span "field name")
  | [_] => .error (.missing n.span "field type")
  | name :: type :: rest =>
    match (type.children.filterMap FieldType.ofNode?).getLast? with
    | none => .error (.missing type.span "type name")
    | some fieldType => do
      .ok {
        name := name.ident
        type := fieldType
        modifier := .ofNodes type.children
        attributes := ← Attribute.listOfNodes rest
        comment := Peg.Node.lastComment? rest
        span := n.span }

/-! ### Blocks -/

/-- The attribute of a block that a node is. -/
def BlockAttribute.ofNode (n : Tree) : Except SyntaxError BlockAttribute :=
  match n.children with
  | [] => .error (.missing n.span "block attribute")
  | attr :: rest => do .ok ⟨← Attribute.ofNode attr, rest.head?.map Peg.Node.comment⟩

/-- What a node inside a block is, if it belongs there: a comment, or what its rule stands for in
such a block. -/
def Peg.Node.member? {α : Type} (comment : Comment → α)
    (kinds : List (Rule × (Tree → Except SyntaxError α))) (n : Tree) :
    Except SyntaxError (Option α) :=
  if n.isComment then .ok (some (comment n.comment))
  else
    match kinds.find? (·.1 = n.rule) with
    | some kind => do .ok (some (← kind.2 n))
    | none => .ok none

/-- The name and the members of the block that a node is, behind its keyword. -/
def Peg.Node.block {α : Type} (keyword : String) (ofNode? : Tree → Except SyntaxError (Option α))
    (n : Tree) : Except SyntaxError (Ident × List α) :=
  match n.children with
  | [] => .error (.missing n.span ("`" ++ keyword ++ "`"))
  | [_] => .error (.missing n.span (keyword ++ " name"))
  | _ :: name :: rest => do .ok (name.ident, (← rest.mapM ofNode?).filterMap id)

/-- What a node inside a model is, if it belongs there. -/
def ModelMember.ofNode? : Tree → Except SyntaxError (Option ModelMember) :=
  Peg.Node.member? .comment
    [(.fieldDef, fun n => do .ok (.field (← Field.ofNode n))),
      (.blockAttributeDef, fun n => do .ok (.blockAttribute (← BlockAttribute.ofNode n)))]

/-- The model that a node is. -/
def Model.ofNode (n : Tree) : Except SyntaxError Model := do
  let (name, members) ← n.block "model" ModelMember.ofNode?
  .ok ⟨name, members, n.span⟩

/-- The value of an enum that a node is. -/
def EnumValue.ofNode (n : Tree) : Except SyntaxError EnumValue :=
  match n.children with
  | [] => .error (.missing n.span "enum value")
  | name :: rest => do
    .ok ⟨name.ident, ← Attribute.listOfNodes rest, Peg.Node.lastComment? rest, n.span⟩

/-- What a node inside an enum is, if it belongs there. -/
def EnumMember.ofNode? : Tree → Except SyntaxError (Option EnumMember) :=
  Peg.Node.member? .comment
    [(.enumValue, fun n => do .ok (.value (← EnumValue.ofNode n))),
      (.blockAttributeDef, fun n => do .ok (.blockAttribute (← BlockAttribute.ofNode n)))]

/-- The enum that a node is. -/
def Enum.ofNode (n : Tree) : Except SyntaxError Enum := do
  let (name, members) ← n.block "enum" EnumMember.ofNode?
  .ok ⟨name, members, n.span⟩

/-- The property that a node is. -/
def Property.ofNode (n : Tree) : Except SyntaxError Property :=
  match n.children with
  | [] => .error (.missing n.span "property name")
  | [_] => .error (.missing n.span "property value")
  | name :: value :: rest => do
    .ok ⟨name.ident, ← Value.ofNode value, rest.head?.map Peg.Node.comment, n.span⟩

/-- What a node inside a block of configuration is, if it belongs there. -/
def ConfigMember.ofNode? : Tree → Except SyntaxError (Option ConfigMember) :=
  Peg.Node.member? .comment [(.configProperty, fun n => do .ok (.property (← Property.ofNode n)))]

/-- The block of configuration that a node is. -/
def ConfigBlock.ofNode (n : Tree) : Except SyntaxError ConfigBlock :=
  match n.children with
  | [] => .error (.missing n.span "block keyword")
  | keyword :: _ =>
    match ConfigKind.ofWord? keyword.string with
    | none => .error (.ofSpan keyword.span "unknown block keyword")
    | some kind => do
      let (name, members) ← n.block "block" ConfigMember.ofNode?
      .ok ⟨kind, name, members, n.span⟩

/-! ### Schemas -/

/-- What a node of a schema declares, if it declares anything. -/
def Declaration.ofNode? (n : Tree) : Except SyntaxError (Option Declaration) :=
  match n.rule with
  | .commentBlock => .ok (some (.comments ⟨n.children.map Peg.Node.comment, n.span⟩))
  | .configBlock => do .ok (some (.config (← ConfigBlock.ofNode n)))
  | .modelDef => do .ok (some (.model (← Model.ofNode n)))
  | .enumDef => do .ok (some (.enum (← Enum.ofNode n)))
  | _ => .ok none

/-- The schema that a node is. -/
def Schema.ofNode (n : Tree) : Except SyntaxError Schema := do
  .ok ⟨(← n.children.mapM Declaration.ofNode?).filterMap id⟩

/-- Reads a schema. -/
def Schema.parse (text : String) : Except SyntaxError Schema :=
  match grammar.read .schema text.toList with
  | ⟨none, attempts⟩ => .error (.ofAttempts attempts)
  | ⟨some (_, []), _⟩ => .error (.missing ⟨0, text.utf8ByteSize, 1⟩ "schema")
  | ⟨some (_, root :: _), _⟩ => Schema.ofNode root

end Pseudonym

/-
# The parts of a tree and of a schema

The nodes of a tree in the order of the text, and what each of them is by
itself: a declaration, a member, an attribute or an argument with its place, a
word, a comment, a string, the value of a number, or brackets around other
parts. A schema has the same kinds of parts, in the order in which it keeps
them.

Words, comments and strings are parts with nothing below them. A value and its
arguments have the parts of the nodes that they are read from.
-/
import Pseudonym.Proofs.Syntax.Faithful
import Pseudonym.Proofs.Syntax.Formed
import Pseudonym.Proofs.Syntax.Numbers

namespace Pseudonym

/-! ### Nodes -/

mutual

/-- A node and all nodes below it, in the order of the text. -/
def Peg.Node.nodes {R : Type} : Peg.Node R → List (Peg.Node R)
  | ⟨rule, span, text, children⟩ => ⟨rule, span, text, children⟩ :: Peg.Node.nodesEach children

/-- Nodes and all nodes below them, in the order of the text. -/
def Peg.Node.nodesEach {R : Type} : List (Peg.Node R) → List (Peg.Node R)
  | [] => []
  | n :: rest => n.nodes ++ Peg.Node.nodesEach rest

end

open Peg

theorem Peg.Node.nodesEach_eq_flatMap {R : Type} (ns : List (Node R)) :
    nodesEach ns = ns.flatMap nodes := by
  induction ns with
  | nil => rw [nodesEach, List.flatMap_nil]
  | cons n ns ih => rw [nodesEach, ih, List.flatMap_cons]

mutual

/-- What holds of a tree at all its nodes holds of the trees below it. -/
theorem Peg.Node.All.of_mem_nodes {R : Type} {Q : Node R → Prop} :
    ∀ n : Node R, n.All Q → ∀ n' ∈ n.nodes, n'.All Q
  | ⟨rule, span, text, children⟩, h, n', hn' => by
    rw [Node.nodes] at hn'
    rcases List.mem_cons.mp hn' with rfl | hn'
    · exact h
    · exact Peg.Node.All.of_mem_nodesEach children h.2 n' hn'

@[inherit_doc Peg.Node.All.of_mem_nodes]
theorem Peg.Node.All.of_mem_nodesEach {R : Type} {Q : Node R → Prop} :
    ∀ ns : List (Node R), Node.AllEach Q ns → ∀ n' ∈ Node.nodesEach ns, n'.All Q
  | [], _, n', hn' => by
    rw [Node.nodesEach] at hn'
    cases hn'
  | n :: ns, h, n', hn' => by
    rw [Node.nodesEach] at hn'
    rcases List.mem_append.mp hn' with hn' | hn'
    · exact Peg.Node.All.of_mem_nodes n h.1 n' hn'
    · exact Peg.Node.All.of_mem_nodesEach ns h.2 n' hn'

end

/-- A part of a schema, without the parts inside it. -/
inductive Part where
  /-- A declaration, a member, an attribute or an argument, and where it stands. -/
  | item (rule : Rule) (span : Span)
  /-- A name, a path, a truth value, the keyword of a configuration, or a mark behind a type. -/
  | word (rule : Rule) (text : String)
  | comment (comment : Comment)
  | string (text : String)
  | number (value : ℚ)
  /-- A call, an array or an unsupported type, around what it is made of. -/
  | around (rule : Rule)
  deriving DecidableEq

namespace Peg.Node

/-- What a node is by itself. Those that only hold others together are nothing, and so are the
texts inside a comment and a string, the keywords of models and enums, and the end of the text. -/
def part? (n : Tree) : Option Part :=
  match n.rule with
  | .commentBlock | .configBlock | .modelDef | .enumDef | .configProperty | .fieldDef | .enumValue
  | .fieldAttribute | .blockAttribute | .argument => some (.item n.rule n.span)
  | .identifier | .path | .boolean | .configKeyword | .listMarker | .optionalMarker =>
    some (.word n.rule n.string)
  | .docComment | .lineComment => some (.comment n.comment)
  | .stringLiteral => some (.string (.ofList (firstText n.children)))
  | .number => some (.number (decimal n.text))
  | .functionCall | .array | .unsupportedType => some (.around n.rule)
  | .endOfText | .schema | .commentText | .modelKeyword | .enumKeyword | .fieldType
  | .blockAttributeDef | .arguments | .namedArgument | .stringContent => none

/-- The parts that a node and the nodes below it are. -/
def parts (n : Tree) : List Part := n.nodes.filterMap part?

/-- What a node is comes before what its children are. -/
theorem parts_eq (n : Tree) : n.parts = n.part?.toList ++ n.children.flatMap parts := by
  obtain ⟨rule, span, text, children⟩ := n
  rw [parts, nodes, nodesEach_eq_flatMap, List.filterMap_cons, List.filterMap_flatMap]
  cases part? ⟨rule, span, text, children⟩ <;> rfl

end Peg.Node

/-! ### Schemas -/

/-- The name as a part. -/
def Ident.part (i : Ident) : Part := .word .identifier i.name

mutual

/-- The parts of a value. -/
def Value.parts : Value → List Part
  | .string text => [.string text]
  | .int n => [.number n.toInt]
  | .number digits => [.number (decimal digits.toList)]
  | .boolean truth => [.word .boolean (.ofList (truthWord truth))]
  | .path segments => [.word .path (".".intercalate segments)]
  | .call name args => .around .functionCall :: .word .path name :: Argument.partsEach args
  | .array items => .around .array :: Value.partsEach items

@[inherit_doc Value.parts]
def Value.partsEach : List Value → List Part
  | [] => []
  | v :: rest => v.parts ++ Value.partsEach rest

/-- The parts of an argument. -/
def Argument.parts : Argument → List Part
  | ⟨none, value, span⟩ => .item .argument span :: value.parts
  | ⟨some name, value, span⟩ => .item .argument span :: name.part :: value.parts

@[inherit_doc Argument.parts]
def Argument.partsEach : List Argument → List Part
  | [] => []
  | a :: rest => a.parts ++ Argument.partsEach rest

end

/-- The parts of an attribute of a field or of a block. -/
def Attribute.parts (rule : Rule) (a : Attribute) : List Part :=
  .item rule a.span :: .word .path a.name.name :: Argument.partsEach a.args

/-- The comment that may stand at the end of a line. -/
def commentParts (comment : Option Comment) : List Part := comment.toList.map .comment

/-- The parts at the end of a line: attributes, and a comment or none. -/
def tailParts (attributes : List Attribute) (comment : Option Comment) : List Part :=
  attributes.flatMap (·.parts .fieldAttribute) ++ commentParts comment

/-- The parts of a type. -/
def FieldType.parts : FieldType → List Part
  | .scalar type => [.word .identifier type.word]
  | .named ident => [ident.part]
  | .unsupported text => [.around .unsupportedType, .string text]

/-- The marks behind a type. -/
def TypeModifier.parts (modifier : TypeModifier) : List Part :=
  (if modifier.isList then [.word .listMarker "[]"] else []) ++
    if modifier.isOptional then [.word .optionalMarker "?"] else []

/-- The parts of a field. -/
def Field.parts (f : Field) : List Part :=
  .item .fieldDef f.span :: f.name.part ::
    (f.type.parts ++ f.modifier.parts ++ tailParts f.attributes f.comment)

/-- The parts of an attribute of a block, with the comment behind it. -/
def BlockAttribute.parts (a : BlockAttribute) : List Part :=
  a.attr.parts .blockAttribute ++ commentParts a.comment

/-- The parts of a member of a model. -/
def ModelMember.parts : ModelMember → List Part
  | .field f => f.parts
  | .blockAttribute a => a.parts
  | .comment c => [.comment c]

/-- The parts of a value of an enum. -/
def EnumValue.parts (v : EnumValue) : List Part :=
  .item .enumValue v.span :: v.name.part :: tailParts v.attributes v.comment

/-- The parts of a member of an enum. -/
def EnumMember.parts : EnumMember → List Part
  | .value v => v.parts
  | .blockAttribute a => a.parts
  | .comment c => [.comment c]

/-- The parts of a property. -/
def Property.parts (p : Property) : List Part :=
  .item .configProperty p.span :: p.name.part :: (p.value.parts ++ commentParts p.comment)

/-- The parts of a member of a configuration. -/
def ConfigMember.parts : ConfigMember → List Part
  | .property p => p.parts
  | .comment c => [.comment c]

/-- The parts of a declaration. -/
def Declaration.parts : Declaration → List Part
  | .config b => .item .configBlock b.span :: .word .configKeyword b.kind.word :: b.name.part ::
    b.members.flatMap (·.parts)
  | .model m => .item .modelDef m.span :: m.name.part :: m.members.flatMap (·.parts)
  | .enum e => .item .enumDef e.span :: e.name.part :: e.members.flatMap (·.parts)
  | .comments b => .item .commentBlock b.span :: b.comments.map .comment

/-- The parts of a schema. -/
def Schema.parts (s : Schema) : List Part := s.declarations.flatMap (·.parts)

/-! ### Words and comments -/

variable {n : Tree} {ns : List Tree}

namespace Peg.Node

/-- A word has no parts but itself. -/
theorem parts_of_leaf {r : Rule} (h : n.All Formed) (hrule : n.rule = r)
    (hleaf : ∀ ns, r.Consists ns → ns = []) : n.parts = n.part?.toList := by
  rw [parts_eq, hleaf _ (h.consists hrule), List.flatMap_nil, List.append_nil]

theorem parts_identifier (h : n.All Formed) (hrule : n.rule = .identifier) :
    n.parts = [n.ident.part] := by
  rw [parts_of_leaf h hrule fun _ => id, part?, hrule]
  rfl

theorem parts_path (h : n.All Formed) (hrule : n.rule = .path) :
    n.parts = [.word .path n.string] := by
  rw [parts_of_leaf h hrule fun _ => id, part?, hrule]
  rfl

/-- The text inside a comment or a string is no part of its own. -/
theorem parts_of_inner {r : Rule} (h : ∀ n ∈ ns, n.All Formed) (hns : Single (·.rule = r) ns)
    (hr : r = .commentText ∨ r = .stringContent) : ns.flatMap parts = [] := by
  obtain ⟨text, rfl, hrule⟩ := hns
  have htext := h text List.mem_cons_self
  rw [List.flatMap_singleton]
  rcases hr with rfl | rfl
  · rw [parts_of_leaf htext hrule fun _ => id, part?, hrule]
    rfl
  · rw [parts_of_leaf htext hrule fun _ => id, part?, hrule]
    rfl

theorem parts_comment (h : n.All Formed) (hcomment : n.isComment = true) :
    n.parts = [.comment n.comment] := by
  rcases isComment_cases hcomment with hrule | hrule
  · rw [parts_eq, parts_of_inner h.children (h.consists hrule) (.inl rfl), part?, hrule]
    rfl
  · rw [parts_eq, parts_of_inner h.children (h.consists hrule) (.inl rfl), part?, hrule]
    rfl

theorem parts_string (h : n.All Formed) (hrule : n.rule = .stringLiteral) :
    n.parts = [.string (.ofList (firstText n.children))] := by
  rw [parts_eq, parts_of_inner h.children (h.consists hrule) (.inr rfl), part?, hrule]
  rfl

end Peg.Node

/-! ### Values -/

/-- A numeral has one part, its value. -/
theorem Value.parts_ofNumeral {w : List Char} (hw : IsNumeral w) :
    (Value.ofNumeral w).parts = [.number (decimal w)] := by
  rcases Value.ofNumeral_cases hw with ⟨-, i, hi, hvalue⟩ | ⟨-, hnumber⟩
  · rw [hi, Value.parts, hvalue]
  · rw [hnumber, Value.parts, String.toList_ofList]

theorem truthWord_beq (truth : Bool) : (truthWord truth == "true".toList) = truth := by
  cases truth <;> rfl

/-- The segments of a path make up its word. -/
theorem intercalate_splitOn (w : List Char) :
    ".".intercalate ((w.splitOn '.').map String.ofList) = .ofList w := by
  have hsegments : ((w.splitOn '.').map String.ofList).map String.toList = w.splitOn '.' := by
    simp
  rw [← String.toList_inj, String.toList_intercalate, hsegments,
    String.toList_ofList (l := w)]
  exact List.intercalate_splitOn '.'

mutual

/-- A value has the parts of its node. -/
theorem Value.parts_ofNode : ∀ n : Tree, n.All Node.Formed →
    Yields (fun v => n.parts = v.parts) (Value.ofNode n)
  | ⟨rule, span, text, children⟩, h => by
    have hconsists := h.self.consists
    have hspells := h.self.spells
    have hchildren := h.2
    cases rule with
    | stringLiteral =>
      rw [Value.ofNode]
      refine .ok ?_
      rw [Node.parts_string h rfl, Value.parts]
    | number =>
      rw [Value.ofNode]
      refine .ok ?_
      rw [Node.parts_of_leaf h rfl fun _ => id, Value.parts_ofNumeral hspells]
      rfl
    | boolean =>
      rw [Value.ofNode]
      refine .ok ?_
      obtain ⟨truth, rfl⟩ : ∃ truth, text = truthWord truth := hspells
      rw [Node.parts_of_leaf h rfl fun _ => id, truthWord_beq, Value.parts]
      rfl
    | path =>
      rw [Value.ofNode]
      refine .ok ?_
      rw [Node.parts_path h rfl, Value.parts, intercalate_splitOn]
      rfl
    | functionCall =>
      obtain ⟨name, args, rfl, hname, hargs⟩ := hconsists
      obtain ⟨hn, ha, -⟩ := hchildren
      rw [Value.ofNode]
      refine (Argument.parts_listOfNode args ha hargs).bind fun as has => .ok ?_
      rw [Node.parts_eq, Value.parts]
      simp only [List.flatMap_cons, List.flatMap_nil, List.append_nil, has, Node.parts_path hn hname]
      rfl
    | array =>
      rw [Value.ofNode]
      refine (Value.parts_listOfNodes children hchildren).bind fun vs hvs => .ok ?_
      rw [Node.parts_eq, Value.parts]
      simp only [hvs]
      rfl
    | _ =>
      intro v hv
      simp [Value.ofNode] at hv

@[inherit_doc Value.parts_ofNode]
theorem Value.parts_listOfNodes : ∀ ns : List Tree, Node.AllEach Node.Formed ns →
    Yields (fun vs => ns.flatMap Node.parts = Value.partsEach vs) (Value.listOfNodes ns)
  | [], _ => by
    rw [Value.listOfNodes]
    exact .ok (by rw [Value.partsEach, List.flatMap_nil])
  | n :: rest, h => by
    rw [Value.listOfNodes]
    refine (Value.parts_ofNode n h.1).bind fun v hv => ?_
    refine (Value.parts_listOfNodes rest h.2).bind fun vs hvs => .ok ?_
    rw [List.flatMap_cons, Value.partsEach, hv, hvs]

/-- An argument has the parts of its node. -/
theorem Argument.parts_ofNode : ∀ n : Tree, n.All Node.Formed → n.rule = .argument →
    Yields (fun a => n.parts = a.parts) (Argument.ofNode n)
  | ⟨_, span, text, []⟩, h, hrule => by
    rw [Argument.ofNode]
    exact .error _
  | ⟨_, span, text, ⟨rule, span', text', children⟩ :: rest⟩, h, hrule => by
    obtain rfl := hrule
    obtain ⟨child, hsingle, -⟩ := h.self.consists
    obtain ⟨rfl, rfl⟩ := List.cons.inj hsingle
    obtain ⟨-, hchild, -⟩ := h
    by_cases hnamed : rule = .namedArgument
    · subst hnamed
      obtain ⟨name, value, rfl, hname⟩ := hchild.self.consists
      obtain ⟨-, hn, hv, -⟩ := hchild
      rw [Argument.ofNode]
      refine (Value.parts_ofNode value hv).bind fun v hparts => .ok ?_
      rw [Node.parts_eq, Argument.parts]
      simp only [List.flatMap_cons, List.flatMap_nil, List.append_nil]
      rw [Node.parts_eq]
      simp only [List.flatMap_cons, List.flatMap_nil, List.append_nil, hparts,
        Node.parts_identifier hn hname]
      rfl
    · rw [Argument.ofNode]
      · refine (Value.parts_ofNode ⟨rule, span', text', children⟩ hchild).bind fun v hparts => .ok ?_
        rw [Node.parts_eq, Argument.parts]
        simp only [List.flatMap_cons, List.flatMap_nil, List.append_nil, hparts]
        rfl
      · rintro _ _ _ ⟨⟩
        exact hnamed rfl

@[inherit_doc Argument.parts_ofNode]
theorem Argument.parts_listOfNodes : ∀ ns : List Tree, Node.AllEach Node.Formed ns →
    (∀ n ∈ ns, n.rule = .argument) →
    Yields (fun as => ns.flatMap Node.parts = Argument.partsEach as) (Argument.listOfNodes ns)
  | [], _, _ => by
    rw [Argument.listOfNodes]
    exact .ok (by rw [Argument.partsEach, List.flatMap_nil])
  | n :: rest, h, hrules => by
    have hrule := hrules n List.mem_cons_self
    rw [Argument.listOfNodes, if_pos hrule]
    refine (Argument.parts_ofNode n h.1 hrule).bind fun a ha => ?_
    refine (Argument.parts_listOfNodes rest h.2 fun n' hn' =>
      hrules n' (List.mem_cons_of_mem n hn')).bind fun as has => .ok ?_
    rw [List.flatMap_cons, Argument.partsEach, ha, has]

@[inherit_doc Argument.parts_ofNode]
theorem Argument.parts_listOfNode : ∀ n : Tree, n.All Node.Formed → n.rule = .arguments →
    Yields (fun as => n.parts = Argument.partsEach as) (Argument.listOfNode n)
  | ⟨rule, span, text, children⟩, h, hrule => by
    obtain rfl : rule = .arguments := hrule
    rw [Argument.listOfNode]
    intro as has
    rw [Node.parts_eq]
    exact Argument.parts_listOfNodes children h.2 h.self.consists as has

end

end Pseudonym

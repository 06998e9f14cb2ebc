/-
# Everything in a tree is in its schema

What a tree that is read is turned into has exactly the parts of its nodes, in
the same order. So no node is dropped and none is used twice, although the
conversion looks for what it needs among the children of a node and passes over
the rest. A text is refused only where the grammar does not read it.
-/
import Pseudonym.Proofs.Syntax.Inventory

namespace Pseudonym

open Peg

variable {n : Tree} {ns : List Tree}

/-! ### Lists of nodes -/

/-- Nodes that are turned into something with their parts are so one by one. -/
theorem yields_parts_mapM {α : Type} {ofNode : Tree → Except SyntaxError α} {parts : α → List Part}
    (h : ∀ n ∈ ns, Yields (fun a => n.parts = parts a) (ofNode n)) :
    Yields (fun xs => ns.flatMap Node.parts = xs.flatMap parts) (ns.mapM ofNode) := by
  induction ns with
  | nil => exact .ok rfl
  | cons n ns ih =>
    rw [List.mapM_cons]
    refine (h n List.mem_cons_self).bind fun a ha => ?_
    refine (ih fun n' hn' => h n' (List.mem_cons_of_mem n hn')).bind fun as has => .ok ?_
    rw [List.flatMap_cons, List.flatMap_cons, ha, has]

/-- Members that are kept have the parts of all nodes, if what is not kept has none. -/
theorem yields_parts_members {α : Type} {ofNode? : Tree → Except SyntaxError (Option α)}
    {parts : α → List Part}
    (h : ∀ n ∈ ns, Yields (fun a => n.parts = a.toList.flatMap parts) (ofNode? n)) :
    Yields (fun xs => ns.flatMap Node.parts = (xs.filterMap id).flatMap parts)
      (ns.mapM ofNode?) := by
  intro xs hxs
  rw [List.filterMap_eq_flatMap_toList, List.flatMap_assoc]
  exact yields_parts_mapM h xs hxs

/-- A comment or none, as it stands at the end of a line. -/
theorem parts_atMostOne (h : ∀ n ∈ ns, n.All Node.Formed)
    (hns : AtMostOne (·.isComment = true) ns) :
    ns.flatMap Node.parts = commentParts (ns.head?.map Node.comment) := by
  rcases hns with rfl | ⟨n, rfl, hn⟩
  · rfl
  · rw [List.flatMap_singleton, Node.parts_comment (h n List.mem_cons_self) hn]
    rfl

/-! ### Attributes -/

/-- An attribute has the parts of its node. -/
theorem Attribute.parts_ofNode (h : n.All Node.Formed)
    (hrule : n.rule = .fieldAttribute ∨ n.rule = .blockAttribute) :
    Yields (fun a => n.parts = a.parts n.rule) (Attribute.ofNode n) := by
  have hself : n.part? = some (.item n.rule n.span) := by
    rcases hrule with hrule | hrule <;> rw [Node.part?, hrule]
  have hconsists : ∃ name args, n.children = name :: args ∧ name.rule = .path ∧
      AtMostOne (·.rule = .arguments) args := by
    rcases hrule with hrule | hrule <;> exact h.consists hrule
  obtain ⟨name, args, hchildren, hname, hargs⟩ := hconsists
  have hformed := h.of_children hchildren
  have hpath := Node.parts_path (hformed name List.mem_cons_self) hname
  rw [Attribute.ofNode, hchildren]
  rcases hargs with rfl | ⟨list, rfl, hlist⟩
  · refine .ok ?_
    rw [Node.parts_eq, hself, hchildren, List.flatMap_singleton, hpath, Attribute.parts,
      Argument.partsEach]
    rfl
  · have harguments := Argument.parts_listOfNode list
      (hformed list (List.mem_cons_of_mem _ List.mem_cons_self)) hlist
    refine harguments.bind fun as has => .ok ?_
    rw [Node.parts_eq, hself, hchildren, List.flatMap_cons, List.flatMap_singleton, hpath, has,
      Attribute.parts]
    rfl

/-- What stands at the end of a line has the parts of its nodes: no comment but the last is there,
and nothing else is. -/
theorem parts_trails (h : ∀ n ∈ ns, n.All Node.Formed) (hns : Trails ns) :
    Yields (fun as => ns.flatMap Node.parts = tailParts as (Node.lastComment? ns))
      (Attribute.listOfNodes ns) := by
  obtain ⟨attributes, comments, rfl, hattributes, hcomments⟩ := hns
  have hcomment := hcomments.mem
  have hleft : (attributes ++ comments).filter (·.rule = .fieldAttribute) = attributes := by
    rw [List.filter_append, List.filter_eq_self.mpr (by simpa using hattributes),
      List.filter_eq_nil_iff.mpr, List.append_nil]
    intro n hn
    simpa using rule_ne_of_isComment (hcomment n hn)
  have hright : (attributes ++ comments).filter Node.isComment = comments := by
    rw [List.filter_append, List.filter_eq_nil_iff.mpr, List.filter_eq_self.mpr hcomment,
      List.nil_append]
    intro n hn hn'
    exact rule_ne_of_isComment hn' (hattributes n hn)
  have hlast : Node.lastComment? (attributes ++ comments) = comments.head?.map Node.comment := by
    rw [Node.lastComment?, hright]
    rcases hcomments with rfl | ⟨n, rfl, -⟩ <;> rfl
  have hcommentParts := parts_atMostOne
    (fun n hn => h n (List.mem_append_right attributes hn)) hcomments
  have hattributeParts : Yields (fun as => attributes.flatMap Node.parts =
      as.flatMap (·.parts .fieldAttribute)) (attributes.mapM Attribute.ofNode) := by
    refine yields_parts_mapM fun n hn => ?_
    rw [← hattributes n hn]
    exact Attribute.parts_ofNode (h n (List.mem_append_left _ hn)) (.inl (hattributes n hn))
  intro as has
  rw [Attribute.listOfNodes, hleft] at has
  rw [List.flatMap_append, hcommentParts, hlast, hattributeParts as has, tailParts]

/-! ### Fields -/

theorem ScalarType.word_of_ofWord? {w : String} {type : ScalarType}
    (h : ScalarType.ofWord? w = some type) : type.word = w := by
  have hword := List.find?_some (p := fun type : ScalarType => type.word == w) h
  exact eq_of_beq hword

/-- A type has the parts of its node: its name, or the text of what is not supported. -/
theorem FieldType.parts_ofNode? {type : FieldType} (h : n.All Node.Formed)
    (htype : FieldType.ofNode? n = some type) : n.parts = type.parts := by
  rw [FieldType.ofNode?] at htype
  split at htype
  next hrule =>
    rw [Node.parts_identifier h hrule]
    split at htype
    next scalar hscalar =>
      cases htype
      rw [FieldType.parts, Ident.part, Node.ident, ScalarType.word_of_ofWord? hscalar]
    next =>
      cases htype
      rw [FieldType.parts]
  next hrule =>
    obtain ⟨literal, hliteral, hlrule⟩ := h.consists hrule
    have hformed := h.of_children hliteral literal List.mem_cons_self
    rw [hliteral] at htype
    cases htype
    rw [Node.parts_eq, hliteral, List.flatMap_singleton, Node.parts_string hformed hlrule,
      Node.part?, hrule, FieldType.parts]
    rfl
  next => cases htype

namespace TypeModifier

theorem isList_ofNodes (ns : List Tree) :
    (ofNodes ns).isList = ns.any (·.rule = .listMarker) := by
  rw [ofNodes]
  cases ns.any (·.rule = .listMarker) <;> cases ns.any (·.rule = .optionalMarker) <;> rfl

theorem isOptional_ofNodes (ns : List Tree) :
    (ofNodes ns).isOptional = ns.any (·.rule = .optionalMarker) := by
  rw [ofNodes]
  cases ns.any (·.rule = .listMarker) <;> cases ns.any (·.rule = .optionalMarker) <;> rfl

end TypeModifier

/-- A mark or none, which is what it says. -/
theorem parts_marker {rule : Rule} {text : String} (h : ∀ n ∈ ns, n.All Node.Formed)
    (hns : AtMostOne (·.rule = rule) ns) (hleaf : ∀ ns, rule.Consists ns → ns = [])
    (hspells : ∀ w, rule.Spells w → w = text.toList)
    (hpart : ∀ n : Tree, n.rule = rule → n.part? = some (.word rule n.string)) :
    ns.flatMap Node.parts = if ns.any (·.rule = rule) then [.word rule text] else [] := by
  rcases hns with rfl | ⟨n, rfl, hrule⟩
  · rfl
  · have hn := h n List.mem_cons_self
    have htext : n.string = text := by
      rw [Node.string, hspells _ (hn.spells hrule), String.ofList_toList]
    rw [List.flatMap_singleton, Node.parts_of_leaf hn hrule hleaf, hpart n hrule, htext]
    simp [hrule]

/-- The type of a field and the marks behind it have the parts of their node. -/
theorem FieldType.parts_children {type : FieldType} (h : n.All Node.Formed) (hrule : n.rule = .fieldType)
    (htype : (n.children.filterMap FieldType.ofNode?).getLast? = some type) :
    n.parts = type.parts ++ (TypeModifier.ofNodes n.children).parts := by
  obtain ⟨first, list, optional, hchildren, hfirst, hlist, hoptional⟩ := h.consists hrule
  have hformed := h.of_children hchildren
  rw [hchildren] at htype
  have hmarks : ∀ n ∈ list ++ optional, FieldType.ofNode? n = none := by
    intro n hn
    rcases List.mem_append.mp hn with hn | hn
    · rw [FieldType.ofNode?, hlist.mem n hn]
    · rw [FieldType.ofNode?, hoptional.mem n hn]
  have hofNode : FieldType.ofNode? first = some type := by
    rw [List.filterMap_cons, List.filterMap_eq_nil_iff.mpr hmarks] at htype
    cases hnone : FieldType.ofNode? first with
    | none =>
      rw [hnone] at htype
      cases htype
    | some type' =>
      rw [hnone] at htype
      exact htype
  -- Each mark is found where it stands, and nowhere else among the children.
  have hisList : (TypeModifier.ofNodes n.children).isList = list.any (·.rule = .listMarker) := by
    have hfirst : first.rule ≠ .listMarker := by rcases hfirst with h | h <;> rw [h] <;> decide
    have hnone : optional.any (·.rule = .listMarker) = false := by
      refine List.any_eq_false.mpr fun n hn => ?_
      rw [hoptional.mem n hn]
      decide
    rw [TypeModifier.isList_ofNodes, hchildren, List.any_cons, List.any_append, hnone,
      decide_eq_false hfirst, Bool.false_or, Bool.or_false]
  have hisOptional : (TypeModifier.ofNodes n.children).isOptional =
      optional.any (·.rule = .optionalMarker) := by
    have hfirst : first.rule ≠ .optionalMarker := by rcases hfirst with h | h <;> rw [h] <;> decide
    have hnone : list.any (·.rule = .optionalMarker) = false := by
      refine List.any_eq_false.mpr fun n hn => ?_
      rw [hlist.mem n hn]
      decide
    rw [TypeModifier.isOptional_ofNodes, hchildren, List.any_cons, List.any_append, hnone,
      decide_eq_false hfirst, Bool.false_or, Bool.false_or]
  have hlistParts := parts_marker (fun n hn => hformed n (by simp [hn])) hlist (fun _ => id)
    (fun _ => id) fun n hn => by rw [Node.part?, hn]
  have hoptionalParts := parts_marker (fun n hn => hformed n (by simp [hn])) hoptional (fun _ => id)
    (fun _ => id) fun n hn => by rw [Node.part?, hn]
  rw [Node.parts_eq, hchildren, List.flatMap_cons, List.flatMap_append,
    FieldType.parts_ofNode? (hformed first List.mem_cons_self) hofNode, hlistParts, hoptionalParts,
    TypeModifier.parts, ← hchildren, hisList, hisOptional, Node.part?, hrule]
  rfl

/-- A field has the parts of its node. -/
theorem Field.parts_ofNode (h : n.All Node.Formed) (hrule : n.rule = .fieldDef) :
    Yields (fun f => n.parts = f.parts) (Field.ofNode n) := by
  obtain ⟨name, type, rest, hchildren, hname, htype, htail⟩ := h.consists hrule
  have hformed := h.of_children hchildren
  have hident := Node.parts_identifier (hformed name List.mem_cons_self) hname
  have htypeFormed := hformed type (List.mem_cons_of_mem _ List.mem_cons_self)
  rw [Field.ofNode, hchildren]
  dsimp only
  split
  · exact .error _
  next fieldType hfieldType =>
    have htypeParts := FieldType.parts_children htypeFormed htype hfieldType
    refine (parts_trails (fun n hn => hformed n (List.mem_cons_of_mem _ (List.mem_cons_of_mem _ hn)))
      htail).bind fun as has => .ok ?_
    rw [Node.parts_eq, hchildren, List.flatMap_cons, List.flatMap_cons, hident, htypeParts, has,
      Node.part?, hrule, Field.parts]
    simp

/-- A value of an enum has the parts of its node. -/
theorem EnumValue.parts_ofNode (h : n.All Node.Formed) (hrule : n.rule = .enumValue) :
    Yields (fun v => n.parts = v.parts) (EnumValue.ofNode n) := by
  obtain ⟨name, rest, hchildren, hname, htail⟩ := h.consists hrule
  have hformed := h.of_children hchildren
  have hident := Node.parts_identifier (hformed name List.mem_cons_self) hname
  rw [EnumValue.ofNode, hchildren]
  refine (parts_trails (fun n hn => hformed n (List.mem_cons_of_mem _ hn)) htail).bind
    fun as has => .ok ?_
  rw [Node.parts_eq, hchildren, List.flatMap_cons, hident, has, Node.part?, hrule, EnumValue.parts]
  rfl

/-! ### Members -/

/-- An attribute of a block has the parts of its node, with the comment behind it. -/
theorem BlockAttribute.parts_ofNode (h : n.All Node.Formed) (hrule : n.rule = .blockAttributeDef) :
    Yields (fun a => n.parts = a.parts) (BlockAttribute.ofNode n) := by
  obtain ⟨attr, rest, hchildren, hattr, hcomment⟩ := h.consists hrule
  have hformed := h.of_children hchildren
  have hrest := parts_atMostOne (fun n hn => hformed n (List.mem_cons_of_mem _ hn)) hcomment
  rw [BlockAttribute.ofNode, hchildren]
  refine (Attribute.parts_ofNode (hformed attr List.mem_cons_self) (.inr hattr)).bind
    fun a ha => .ok ?_
  rw [Node.parts_eq, hchildren, List.flatMap_cons, ha, hattr, hrest, Node.part?, hrule,
    BlockAttribute.parts]
  rfl

/-- A property has the parts of its node. -/
theorem Property.parts_ofNode (h : n.All Node.Formed) (hrule : n.rule = .configProperty) :
    Yields (fun p => n.parts = p.parts) (Property.ofNode n) := by
  obtain ⟨name, value, rest, hchildren, hname, hcomment⟩ := h.consists hrule
  have hformed := h.of_children hchildren
  have hident := Node.parts_identifier (hformed name List.mem_cons_self) hname
  have hrest := parts_atMostOne
    (fun n hn => hformed n (List.mem_cons_of_mem _ (List.mem_cons_of_mem _ hn))) hcomment
  rw [Property.ofNode, hchildren]
  refine (Value.parts_ofNode value (hformed value (List.mem_cons_of_mem _ List.mem_cons_self))).bind
    fun v hv => .ok ?_
  rw [Node.parts_eq, hchildren, List.flatMap_cons, List.flatMap_cons, hident, hv, hrest, Node.part?,
    hrule, Property.parts]
  rfl

/-- Something that is made of a node, as the member it is. -/
theorem Yields.member {α β : Type} {parts : α → List Part} {partsOf : β → List Part} {make : α → β}
    {x : Except SyntaxError α} (h : Yields (fun a => n.parts = parts a) x)
    (hmake : ∀ a, partsOf (make a) = parts a) :
    Yields (fun b : Option β => n.parts = b.toList.flatMap partsOf)
      (x >>= fun a => .ok (some (make a))) := by
  refine h.bind fun a ha => .ok ?_
  rw [ha, Option.toList_some, List.flatMap_singleton, hmake]

section Kinds

variable {α β : Type} {comment : Comment → α} {kinds : List (Rule × (Tree → Except SyntaxError α))}
  {parts : α → List Part}

/-- What a rule stands for in a block has the parts of its node. -/
theorem parts_member {r : Rule} {ofNode : Tree → Except SyntaxError β} {make : β → α}
    {partsOf : β → List Part} (h : Yields (fun b => n.parts = partsOf b) (ofNode n))
    (hrule : n.rule = r) (hr : (r == .docComment || r == .lineComment) = false)
    (hkind : kinds.find? (·.1 = r) = some (r, fun n => do .ok (make (← ofNode n))))
    (hmake : ∀ b, parts (make b) = partsOf b) :
    Yields (fun x => n.parts = x.toList.flatMap parts) (n.member? comment kinds) := by
  have hmember : Yields (fun a => n.parts = parts a) (ofNode n >>= fun b => .ok (make b)) :=
    h.bind fun b hb => .ok (by rw [hb, hmake])
  rw [Node.member?_of_rule hrule hr hkind]
  exact hmember.member fun _ => rfl

theorem parts_member_comment (h : n.All Node.Formed) (hcomment : n.isComment = true)
    (hmake : ∀ c, parts (comment c) = [.comment c]) :
    Yields (fun x => n.parts = x.toList.flatMap parts) (n.member? comment kinds) := by
  rw [Node.member?_of_isComment hcomment]
  refine .ok ?_
  rw [Option.toList_some, List.flatMap_singleton, hmake, Node.parts_comment h hcomment]

end Kinds

/-- A member of a model has the parts of its node. -/
theorem ModelMember.parts_ofNode? (h : n.All Node.Formed)
    (hrule : n.rule = .blockAttributeDef ∨ n.rule = .fieldDef ∨ n.isComment = true) :
    Yields (fun x => n.parts = x.toList.flatMap (·.parts)) (ModelMember.ofNode? n) := by
  rcases hrule with hrule | hrule | hcomment
  · exact parts_member (BlockAttribute.parts_ofNode h hrule) hrule rfl rfl fun _ => rfl
  · exact parts_member (Field.parts_ofNode h hrule) hrule rfl rfl fun _ => rfl
  · exact parts_member_comment h hcomment fun _ => rfl

/-- A member of an enum has the parts of its node. -/
theorem EnumMember.parts_ofNode? (h : n.All Node.Formed)
    (hrule : n.rule = .blockAttributeDef ∨ n.rule = .enumValue ∨ n.isComment = true) :
    Yields (fun x => n.parts = x.toList.flatMap (·.parts)) (EnumMember.ofNode? n) := by
  rcases hrule with hrule | hrule | hcomment
  · exact parts_member (BlockAttribute.parts_ofNode h hrule) hrule rfl rfl fun _ => rfl
  · exact parts_member (EnumValue.parts_ofNode h hrule) hrule rfl rfl fun _ => rfl
  · exact parts_member_comment h hcomment fun _ => rfl

/-- A member of a configuration has the parts of its node. -/
theorem ConfigMember.parts_ofNode? (h : n.All Node.Formed)
    (hrule : n.rule = .configProperty ∨ n.isComment = true) :
    Yields (fun x => n.parts = x.toList.flatMap (·.parts)) (ConfigMember.ofNode? n) := by
  rcases hrule with hrule | hcomment
  · exact parts_member (Property.parts_ofNode h hrule) hrule rfl rfl fun _ => rfl
  · exact parts_member_comment h hcomment fun _ => rfl

/-! ### Declarations -/

theorem ConfigKind.word_of_ofWord? {w : String} {kind : ConfigKind}
    (h : ConfigKind.ofWord? w = some kind) : kind.word = w := by
  have hword := List.find?_some (p := fun kind : ConfigKind => kind.word == w) h
  exact eq_of_beq hword

/-- The parts of a block are its own, those of its keyword, its name, and those of its members. -/
theorem parts_block {α : Type} {keyword : Rule} {Q : Tree → Prop} {parts : α → List Part}
    {ofNode? : Tree → Except SyntaxError (Option α)} (word : String) (h : n.All Node.Formed)
    (hheads : Heads keyword Q n.children) (hleaf : ∀ ns, keyword.Consists ns → ns = [])
    (hmember : ∀ n : Tree, n.All Node.Formed → Q n →
      Yields (fun x => n.parts = x.toList.flatMap parts) (ofNode? n)) :
    ∃ head rest, n.children = head :: rest ∧ head.rule = keyword ∧
      Yields (fun b => n.parts = n.part?.toList ++
        (head.part?.toList ++ b.1.part :: b.2.flatMap parts)) (n.block word ofNode?) := by
  obtain ⟨head, name, members, hchildren, hhead, hname, hmembers⟩ := hheads
  have hformed := h.of_children hchildren
  have hkeyword := Node.parts_of_leaf (hformed head List.mem_cons_self) hhead hleaf
  have hident := Node.parts_identifier
    (hformed name (List.mem_cons_of_mem _ List.mem_cons_self)) hname
  have hparts := yields_parts_members fun n hn =>
    hmember n (hformed n (List.mem_cons_of_mem _ (List.mem_cons_of_mem _ hn))) (hmembers n hn)
  refine ⟨head, _, hchildren, hhead, ?_⟩
  rw [Node.block, hchildren]
  refine hparts.bind fun xs hxs => .ok ?_
  rw [Node.parts_eq, hchildren, List.flatMap_cons, List.flatMap_cons, hkeyword, hident, hxs]
  rfl

/-- A block of configuration has the parts of its node. -/
theorem ConfigBlock.parts_ofNode (h : n.All Node.Formed) (hrule : n.rule = .configBlock) :
    Yields (fun b => n.parts = (Declaration.config b).parts) (ConfigBlock.ofNode n) := by
  obtain ⟨head, rest, hchildren, hhead, hparts⟩ :=
    parts_block "block" h (h.consists hrule) (fun _ => id) fun _ => ConfigMember.parts_ofNode?
  rw [ConfigBlock.ofNode, hchildren]
  dsimp only
  split
  · exact .error _
  next kind hkind =>
    refine hparts.bind fun b hb => .ok ?_
    rw [hb, Node.part?, hrule, Node.part?, hhead, Declaration.parts, ConfigKind.word_of_ofWord? hkind]
    rfl

/-- A model has the parts of its node. -/
theorem Model.parts_ofNode (h : n.All Node.Formed) (hrule : n.rule = .modelDef) :
    Yields (fun m => n.parts = (Declaration.model m).parts) (Model.ofNode n) := by
  obtain ⟨head, -, -, hhead, hparts⟩ :=
    parts_block "model" h (h.consists hrule) (fun _ => id) fun _ => ModelMember.parts_ofNode?
  refine hparts.bind fun b hb => .ok ?_
  rw [hb, Node.part?, hrule, Node.part?, hhead, Declaration.parts]
  rfl

/-- An enum has the parts of its node. -/
theorem Enum.parts_ofNode (h : n.All Node.Formed) (hrule : n.rule = .enumDef) :
    Yields (fun e => n.parts = (Declaration.enum e).parts) (Enum.ofNode n) := by
  obtain ⟨head, -, -, hhead, hparts⟩ :=
    parts_block "enum" h (h.consists hrule) (fun _ => id) fun _ => EnumMember.parts_ofNode?
  refine hparts.bind fun b hb => .ok ?_
  rw [hb, Node.part?, hrule, Node.part?, hhead, Declaration.parts]
  rfl

/-- Comments on lines of their own are the parts of their nodes. -/
theorem parts_comments (h : ∀ n ∈ ns, n.All Node.Formed) (hns : ∀ n ∈ ns, n.isComment = true) :
    ns.flatMap Node.parts = (ns.map Node.comment).map .comment := by
  induction ns with
  | nil => rfl
  | cons n ns ih =>
    have hrest := ih (fun n' hn' => h n' (List.mem_cons_of_mem n hn'))
      fun n' hn' => hns n' (List.mem_cons_of_mem n hn')
    rw [List.flatMap_cons, hrest,
      Node.parts_comment (h n List.mem_cons_self) (hns n List.mem_cons_self)]
    rfl

/-- A declaration has the parts of its node. -/
theorem Declaration.parts_ofNode? (h : n.All Node.Formed)
    (hrule : n.rule ∈ [Rule.endOfText, .commentBlock, .configBlock, .modelDef, .enumDef]) :
    Yields (fun x => n.parts = x.toList.flatMap (·.parts)) (Declaration.ofNode? n) := by
  simp only [List.mem_cons, List.not_mem_nil, or_false] at hrule
  rcases hrule with hrule | hrule | hrule | hrule | hrule
  · rw [Declaration.ofNode?, hrule]
    refine .ok ?_
    rw [Node.parts_of_leaf h hrule fun _ => id, Node.part?, hrule]
    rfl
  · rw [Declaration.ofNode?, hrule]
    refine .ok ?_
    rw [Node.parts_eq, parts_comments h.children (h.consists hrule), Node.part?, hrule,
      Option.toList_some, Option.toList_some, List.flatMap_singleton, Declaration.parts]
    rfl
  · rw [Declaration.ofNode?, hrule]
    exact (ConfigBlock.parts_ofNode h hrule).member fun _ => rfl
  · rw [Declaration.ofNode?, hrule]
    exact (Model.parts_ofNode h hrule).member fun _ => rfl
  · rw [Declaration.ofNode?, hrule]
    exact (Enum.parts_ofNode h hrule).member fun _ => rfl

/-- A schema has the parts of its tree. -/
theorem Schema.parts_ofNode (h : n.All Node.Formed) (hrule : n.rule = .schema) :
    Yields (fun s => n.parts = s.parts) (Schema.ofNode n) := by
  have hparts := yields_parts_members fun n hn =>
    Declaration.parts_ofNode? (h.children n hn) (h.consists hrule n hn)
  rw [Schema.ofNode]
  refine hparts.bind fun xs hxs => .ok ?_
  rw [Node.parts_eq, hxs, Node.part?, hrule]
  rfl

/-! ### Texts -/

/-- A schema is read to the end of its text. -/
theorem rest_of_schema {c c' : Cursor}
    (h : Parses .spaced (.call .schema) c c' ns) : c'.rest = [] := by
  obtain ⟨children, hbody, rfl⟩ := h.of_call_node nofun
  obtain ⟨c₁, _, _, -, hrest, rfl⟩ := hbody.of_seq
  obtain ⟨c₂, _, _, -, hend, rfl⟩ := hrest.of_seq
  obtain ⟨_, hfinish, -⟩ := Derives.of_call_node hend nofun
  cases hfinish with
  | finish hx =>
    split at hx
    next hempty =>
      cases hx
      exact List.isEmpty_iff.mp hempty
    next => cases hx

/-- A text is refused where the grammar does not read it; otherwise its one tree is turned into a
schema with the parts of the tree. -/
theorem Schema.parse_derives (text : String) :
    (Derives grammar .spaced (.expr (.call .schema)) (.ofText text.toList) none ∧
      ∃ a, Schema.parse text = .error (.ofAttempts a)) ∨
    ∃ c n s, Parses .spaced (.call .schema) (.ofText text.toList) c [n] ∧ n.All Node.Formed ∧
      Schema.ofNode n = .ok s ∧
      Schema.parse text = .ok s ∧ n.parts = s.parts := by
  have hrun : Derives grammar .spaced (.expr (.call .schema)) (.ofText text.toList) (grammar.run
      (.expr (.call .schema)) ⟨.spaced, .consuming⟩ (.ofText text.toList) .none).result :=
    survey.toLayering.run_derives rfl
  rcases Schema.parse_cases text with ⟨a, hnone, herror⟩ | ⟨c, n, a, s, hsome, -, hs, hok⟩
  · rw [hnone] at hrun
    exact .inl ⟨hrun, a, herror⟩
  · rw [hsome] at hrun
    have hformed := formed_of_derives hrun n List.mem_cons_self
    have hrule := mem_of_single (of_call_rule hrun nofun) n List.mem_cons_self
    exact .inr ⟨c, n, s, hrun, hformed, hs, hok, Schema.parts_ofNode hformed hrule s hs⟩

/-- **Every tree is a schema, and all of it.** A text is refused exactly if the grammar does not
read it to its end as a schema, and a refusal covers no bytes. Every tree that the grammar reads is
one node that is turned into a schema, never into an error, and the schema has exactly the parts of
the nodes of the tree, in their order: each comment, property, field, value and attribute once. -/
theorem Schema.parse_accounted (text : String) :
    ((∃ error, Schema.parse text = .error error) ↔
      ¬ ∃ c ns, Derives grammar .spaced (.expr (.call .schema)) (.ofText text.toList)
        (some (c, ns)) ∧ c.rest = []) ∧
    (∀ error, Schema.parse text = .error error → error.len = 0) ∧
    ∀ c ns, Derives grammar .spaced (.expr (.call .schema)) (.ofText text.toList) (some (c, ns)) →
      ∃ n s, ns = [n] ∧ Schema.ofNode n = .ok s ∧ Schema.parse text = .ok s ∧
        n.nodes.filterMap Node.part? = s.parts := by
  rcases Schema.parse_derives text with ⟨hnone, a, herror⟩ | ⟨c, n, s, hread, -, hs, hok, hparts⟩
  · refine ⟨⟨?_, fun _ => ⟨_, herror⟩⟩, ?_, ?_⟩
    · rintro - ⟨c, ns, h, -⟩
      cases h.unique hnone
    · intro error h
      rw [herror] at h
      cases h
      rfl
    · intro c ns h
      cases h.unique hnone
  · refine ⟨⟨?_, fun h => absurd ⟨c, [n], hread, rest_of_schema hread⟩ h⟩, ?_, ?_⟩
    · rintro ⟨error, h⟩
      rw [hok] at h
      cases h
    · intro error h
      rw [hok] at h
      cases h
    · intro c' ns h
      cases h.unique hread
      exact ⟨n, s, rfl, hs, hok, hparts⟩

/-- A schema with parts of every kind. -/
def inventoried : String :=
  "/// é\n//\ndatasource d \x7b\n  url = env(\"A\") // u\n\x7d\n" ++
  "model M \x7b\n  id Int @id @default(now()) // k\n  t Unsupported(\"a\\\"b\")[]? " ++
  "@a.b(x: [1, -2.50, true, p.q,], 007)\n  @@index([id]) /// i\n\x7d\n" ++
  "enum E \x7b\n  A @map(\"a\")\n  // c\n  @@map(\"e\")\n\x7d"

theorem Schema.parse_accounted_inventoried : ∃ c n s,
    Derives grammar .spaced (.expr (.call .schema)) (.ofText inventoried.toList) (some (c, [n])) ∧
      Schema.ofNode n = .ok s ∧ Schema.parse inventoried = .ok s ∧
      n.nodes.filterMap Node.part? = s.parts := by
  obtain ⟨herror, -, hall⟩ := Schema.parse_accounted inventoried
  have hok : (Schema.parse inventoried).toBool = true := by decide +kernel
  have hnone : ¬ ∃ error, Schema.parse inventoried = .error error := by
    rintro ⟨error, h⟩
    rw [h] at hok
    cases hok
  obtain ⟨c, ns, h, -⟩ := not_not.mp (mt herror.mpr hnone)
  obtain ⟨n, s, rfl, hs, hparse, hparts⟩ := hall c ns h
  exact ⟨c, n, s, h, hs, hparse, hparts⟩

end Pseudonym

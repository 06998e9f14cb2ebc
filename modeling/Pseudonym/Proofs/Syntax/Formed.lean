/-
# Whole trees

What all the children of a node are, by the rule of the node, and how words
are spelled. Words have no children: their rules are read in the atomic mode,
where no rule that they call leaves a node. A line ends in one comment at most.

Every tree that is read is formed like this, so nothing in it is left over when
its parts have been taken one by one.
-/
import Pseudonym.Proofs.Peg.SideBySide
import Pseudonym.Proofs.Syntax.Shapes

namespace Pseudonym

/-! ### Words -/

namespace Peg

variable {R : Type} {g : Grammar R}

/-- In the atomic mode, expressions leave no nodes, if the rules they call do not. -/
theorem Derives.nodes_of_atomic {calls : R → Bool}
    (hcalls : ∀ r, calls r = true → (g.kind r).outerMode .atomic = .atomic)
    {m : Mode} {t : Goal R} {c : Cursor} {x : Option (Cursor × List (Node R))}
    (h : Derives g m t c x) (hm : m = .atomic) (ht : t.over Expr.isTerminal calls = true) :
    ∀ z ∈ x, z.2 = [] := by
  induction h with
  | word hx | one hx =>
    rintro z rfl
    obtain ⟨c', -, rfl⟩ := Option.map_eq_some_iff.mp hx
    rfl
  | start hx | finish hx =>
    rintro z rfl
    split at hx <;> cases hx
    rfl
  | @call m r c x y _ hx =>
    rintro z rfl
    obtain ⟨z', -, rfl⟩ := Option.map_eq_some_iff.mp hx
    rw [Grammar.leave, hm, if_pos (hcalls r ht)]
  | seq _ _ hx ihp ihq =>
    rintro z rfl
    obtain ⟨z', rfl, rfl⟩ := Option.map_eq_some_iff.mp hx
    obtain ⟨htp, htq⟩ := Bool.and_eq_true_iff.mp ht
    exact List.append_eq_nil_iff.mpr ⟨ihp hm htp _ rfl, ihq hm htq _ rfl⟩
  | seqFails | notAheadFails => rintro z ⟨⟩
  | first _ ih => exact ih hm (Bool.and_eq_true_iff.mp ht).1
  | second _ _ _ ih => exact ih hm (Bool.and_eq_true_iff.mp ht).2
  | opt _ ih => exact ih hm ht
  | optNone | manyNone | moreNone | notAhead =>
    rintro z ⟨⟩
    rfl
  | many _ _ ihp ihmore | more _ _ ihp ihmore =>
    rintro z ⟨⟩
    exact List.append_eq_nil_iff.mpr ⟨ihp hm ht _ rfl, ihmore hm ht _ rfl⟩

end Peg

open Peg

variable {m : Mode} {c c' : Cursor} {ns : List Tree} {r : Rule} {e e' : Expr Rule} {Q : Tree → Prop}

/-- The rules for words call only names. -/
theorem nodes_of_word (h : Parses .atomic e c c' ns)
    (he : e.over Expr.isTerminal (· == .identifier) = true) : ns = [] := by
  refine h.nodes_of_atomic ?_ rfl he _ rfl
  intro r hr
  rw [eq_of_beq hr]
  rfl

/-! ### Children -/

/-- No node, or one with this property. -/
def AtMostOne (Q : Tree → Prop) (ns : List Tree) : Prop := ns = [] ∨ Single Q ns

theorem AtMostOne.mem (h : AtMostOne Q ns) : ∀ n ∈ ns, Q n := by
  rcases h with rfl | h
  · nofun
  · exact mem_of_single h

/-- What stands at the end of a line: attributes, and then a comment or none. -/
def Trails (ns : List Tree) : Prop :=
  ∃ attributes comments, ns = attributes ++ comments ∧
    (∀ n ∈ attributes, n.rule = .fieldAttribute) ∧ AtMostOne (·.isComment = true) comments

/-- A keyword, a name, and members. -/
def Heads (keyword : Rule) (Q : Tree → Prop) (ns : List Tree) : Prop :=
  ∃ head name members, ns = head :: name :: members ∧ head.rule = keyword ∧
    name.rule = .identifier ∧ ∀ n ∈ members, Q n

/-- The children of a node, by its rule. -/
def Rule.Consists : Rule → List Tree → Prop
  | .schema, ns =>
    ∀ n ∈ ns, n.rule ∈ [.endOfText, .commentBlock, .configBlock, .modelDef, .enumDef]
  | .docComment, ns | .lineComment, ns => Single (·.rule = .commentText) ns
  | .commentBlock, ns => ∀ n ∈ ns, n.isComment = true
  | .configBlock, ns => Heads .configKeyword (fun n => n.rule = .configProperty ∨ n.isComment = true) ns
  | .modelDef, ns => Heads .modelKeyword
    (fun n => n.rule = .blockAttributeDef ∨ n.rule = .fieldDef ∨ n.isComment = true) ns
  | .enumDef, ns => Heads .enumKeyword
    (fun n => n.rule = .blockAttributeDef ∨ n.rule = .enumValue ∨ n.isComment = true) ns
  | .configProperty, ns => ∃ name value rest, ns = name :: value :: rest ∧ name.rule = .identifier ∧
    AtMostOne (·.isComment = true) rest
  | .fieldDef, ns => ∃ name type rest, ns = name :: type :: rest ∧ name.rule = .identifier ∧
    type.rule = .fieldType ∧ Trails rest
  | .enumValue, ns => ∃ name rest, ns = name :: rest ∧ name.rule = .identifier ∧ Trails rest
  | .blockAttributeDef, ns => ∃ attr rest, ns = attr :: rest ∧ attr.rule = .blockAttribute ∧
    AtMostOne (·.isComment = true) rest
  | .fieldType, ns => ∃ type list optional, ns = type :: (list ++ optional) ∧
    (type.rule = .unsupportedType ∨ type.rule = .identifier) ∧
    AtMostOne (·.rule = .listMarker) list ∧ AtMostOne (·.rule = .optionalMarker) optional
  | .unsupportedType, ns => Single (·.rule = .stringLiteral) ns
  | .fieldAttribute, ns | .blockAttribute, ns => ∃ name args, ns = name :: args ∧
    name.rule = .path ∧ AtMostOne (·.rule = .arguments) args
  | .functionCall, ns => ∃ name args, ns = [name, args] ∧ name.rule = .path ∧ args.rule = .arguments
  | .arguments, ns => ∀ n ∈ ns, n.rule = .argument
  | .argument, ns => Single (fun _ => True) ns
  | .namedArgument, ns => ∃ name value, ns = [name, value] ∧ name.rule = .identifier
  | .stringLiteral, ns => Single (·.rule = .stringContent) ns
  | .array, _ => True
  | _, ns => ns = []

/-- How words are spelled that mean something. -/
def Rule.Spells : Rule → List Char → Prop
  | .number, w => IsNumeral w
  | .boolean, w => ∃ truth, w = truthWord truth
  | .stringContent, w => IsContent w
  | .listMarker, w => w = "[]".toList
  | .optionalMarker, w => w = "?".toList
  | _, _ => True

/-- A node with the children and the spelling of its rule. -/
structure Peg.Node.Formed (n : Tree) : Prop where
  consists : n.rule.Consists n.children
  spells : n.rule.Spells n.text

section Formed

variable {n : Tree}

theorem Peg.Node.All.consists (h : n.All Node.Formed) (hrule : n.rule = r) :
    r.Consists n.children := by
  rw [← hrule]
  exact h.self.consists

theorem Peg.Node.All.spells (h : n.All Node.Formed) (hrule : n.rule = r) : r.Spells n.text := by
  rw [← hrule]
  exact h.self.spells

theorem Peg.Node.All.of_children (h : n.All Q) (hchildren : n.children = ns) :
    ∀ n' ∈ ns, n'.All Q := by
  rw [← hchildren]
  exact h.children

end Formed

/-! ### Readings -/

theorem atMostOne_of_opt (h : Parses m (.opt e) c c' ns)
    (he : ∀ c' ns, Parses m e c c' ns → Single Q ns) :
    AtMostOne Q ns := by
  rcases h.of_opt with h | ⟨-, rfl⟩
  · exact .inr (he _ _ h)
  · exact .inl rfl

theorem isComment_of_comment (h : Parses m Grammar.comment c c' ns) :
    Single (·.isComment = true) ns := by
  obtain ⟨n, rfl, hn, -⟩ := of_comment h
  exact ⟨n, rfl, hn⟩

theorem atMostOne_of_trailing
    (h : Parses m Grammar.trailingComment c c' ns) :
    AtMostOne (·.isComment = true) ns :=
  atMostOne_of_opt h fun _ _ => isComment_of_comment

theorem trails_of_derives
    (h : Parses m (.seq (.many (.call .fieldAttribute)) Grammar.trailingComment) c c' ns) :
    Trails ns := by
  obtain ⟨c₁, attributes, comments, hattributes, hcomment, rfl⟩ := h.of_seq
  refine ⟨attributes, comments, rfl, ?_, atMostOne_of_trailing hcomment⟩
  exact of_rounds hattributes fun _ _ _ hround => mem_of_single (of_call_rule hround nofun)

theorem heads_of_block {member : Expr Rule}
    (h : Parses m (Grammar.block (.call r) member) c c' ns)
    (hr : (grammar.kind r).outerMode m ≠ .atomic) (hm : m ≠ .atomic)
    (hmember : ∀ c c' ns, Parses m member c c' ns → Single Q ns) :
    Heads r Q ns := by
  obtain ⟨head, name, members, rfl, hhead, hname, hmembers⟩ :=
    nodes_of_block hm h (fun _ _ _ h => of_call_rule h hr) hmember
  exact ⟨head, name, members, rfl, hhead, hname.1, hmembers⟩

/-- Members that are blocks of attributes, members of another rule, or comments. -/
theorem single_of_member (hm : m ≠ .atomic) (hr : (grammar.kind r).outerMode m ≠ .atomic)
    (h : Parses m (ownMember r) c c' ns) :
    Single (fun n => n.rule = .blockAttributeDef ∨ n.rule = r ∨ n.isComment = true) ns := by
  rcases h.of_alt with hattr | ⟨-, h⟩
  · exact (of_call_rule hattr hm).mono fun _ => .inl
  rcases h.of_alt with hmember | ⟨-, hcomment⟩
  · exact (of_call_rule hmember hr).mono fun _ hn => .inr (.inl hn)
  · exact (isComment_of_comment hcomment).mono fun _ hn => .inr (.inr hn)

theorem rule_of_declaration (hm : m ≠ .atomic)
    (h : Parses m (Grammar.first Grammar.newline
      [.call .commentBlock, .call .configBlock, .call .modelDef, .call .enumDef]) c c' ns) :
    ∀ n ∈ ns, n.rule ∈ [Rule.endOfText, .commentBlock, .configBlock, .modelDef, .enumDef] := by
  intro n hn
  have hcall : ∀ {r : Rule}, Parses m (.call r) c c' ns →
      (grammar.kind r).outerMode m ≠ .atomic → n.rule = r :=
    fun h hr => mem_of_single (of_call_rule h hr) n hn
  rcases h.of_alt with hline | ⟨-, h⟩
  · obtain rfl := of_newline hline
    cases hn
  rcases h.of_alt with h | ⟨-, h⟩
  · simp [hcall h hm]
  rcases h.of_alt with h | ⟨-, h⟩
  · simp [hcall h hm]
  rcases h.of_alt with h | ⟨-, h⟩
  · simp [hcall h hm]
  · simp [hcall h hm]

theorem consists_of_schema
    (h : Parses m (Grammar.body .schema) c c' ns) (hm : m ≠ .atomic) :
    Rule.schema.Consists ns := by
  obtain ⟨c₁, _, _, hstart, hrest, rfl⟩ := h.of_seq
  obtain ⟨c₂, ds, _, hrounds, hend, rfl⟩ := hrest.of_seq
  obtain ⟨-, rfl⟩ := hstart.of_start
  intro n hn
  rw [List.nil_append] at hn
  rcases List.mem_append.mp hn with hn | hn
  · exact of_rounds hrounds (fun _ _ _ => rule_of_declaration hm) n hn
  · rw [mem_of_single (of_call_rule hend hm) n hn]
    decide

theorem consists_of_commentBlock
    (h : Parses m (Grammar.body .commentBlock) c c' ns) :
    Rule.commentBlock.Consists ns := by
  obtain ⟨c₁, _, rest, hfirst, hrest, rfl⟩ := h.of_seq
  have hrest : ∀ n ∈ rest, n.isComment = true := by
    refine of_rounds hrest fun c₁ c₂ ns hround => ?_
    obtain ⟨_, _, _, hline, hcomment, rfl⟩ := hround.of_seq
    obtain rfl := of_newline hline
    exact mem_of_single (isComment_of_comment hcomment)
  intro n hn
  rcases List.mem_append.mp hn with hn | hn
  · exact mem_of_single (isComment_of_comment hfirst) n hn
  · exact hrest n hn

theorem consists_of_fieldType
    (h : Parses .compact (Grammar.body .fieldType) c c' ns) :
    Rule.fieldType.Consists ns := by
  obtain ⟨c₁, types, _, htype, hrest, rfl⟩ := h.of_seq
  obtain ⟨c₂, list, optional, hlist, hoptional, rfl⟩ := hrest.of_seq
  have hsingle : Single (fun n : Tree => n.rule = .unsupportedType ∨ n.rule = .identifier) types := by
    rcases htype.of_alt with htype | ⟨-, htype⟩
    · exact (of_call_rule htype nofun).mono fun _ => .inl
    · exact (of_call_rule htype nofun).mono fun _ => .inr
  obtain ⟨type, rfl, hrule⟩ := hsingle
  exact ⟨type, list, optional, rfl, hrule, atMostOne_of_opt hlist fun _ _ h => of_call_rule h nofun,
    atMostOne_of_opt hoptional fun _ _ h => of_call_rule h nofun⟩

theorem consists_of_attribute {sign : String}
    (h : Parses .compact (Grammar.all (Grammar.lit sign)
      [.call .path, .opt (.call .arguments)]) c c' ns) :
    ∃ name args, ns = name :: args ∧ name.rule = .path ∧ AtMostOne (·.rule = .arguments) args := by
  obtain ⟨c₁, h⟩ := derives_of_lit h
  obtain ⟨c₂, _, args, hname, hargs, rfl⟩ := h.of_seq
  obtain ⟨name, rfl, hrule⟩ := of_call_rule hname nofun
  exact ⟨name, args, rfl, hrule, atMostOne_of_opt hargs fun _ _ h => of_call_rule h nofun⟩

/-- What ends in a word leaves the nodes before it. -/
theorem derives_of_lit_last {w : String}
    (h : Parses m (.seq e (Grammar.lit w)) c c' ns) :
    ∃ c₁, Parses m e c c₁ ns := by
  obtain ⟨c₁, before, _, hfirst, hlit, rfl⟩ := h.of_seq
  obtain ⟨-, rfl⟩ := hlit.of_word
  rw [List.append_nil]
  exact ⟨c₁, hfirst⟩

theorem consists_of_property
    (h : Parses m (Grammar.body .configProperty) c c' ns)
    (hm : m ≠ .atomic) : Rule.configProperty.Consists ns := by
  obtain ⟨c₁, _, _, hname, hrest, rfl⟩ := h.of_seq
  obtain ⟨name, rfl, hrule⟩ := of_call_rule hname hm
  obtain ⟨c₂, hrest⟩ := derives_of_lit hrest
  obtain ⟨c₃, _, rest, hvalue, hcomment, rfl⟩ := hrest.of_seq
  obtain ⟨value, rfl, -⟩ := single_of_value hvalue hm
  exact ⟨name, value, rest, rfl, hrule, atMostOne_of_trailing hcomment⟩

/-- A rule leaves the children it consists of. -/
theorem consists_of_derives (hm : (grammar.kind r).outerMode m ≠ .atomic)
    (h : Parses ((grammar.kind r).innerMode m) (grammar.body r) c c' ns) : r.Consists ns := by
  cases r with
  | schema => exact consists_of_schema h hm
  | docComment | lineComment =>
    obtain ⟨c₁, h⟩ := derives_of_lit h
    exact of_call_rule h nofun
  | commentBlock => exact consists_of_commentBlock h
  | configBlock =>
    refine heads_of_block h hm hm fun c c' ns h => ?_
    rcases h.of_alt with hproperty | ⟨-, hcomment⟩
    · exact (of_call_rule hproperty hm).mono fun _ => .inl
    · exact (isComment_of_comment hcomment).mono fun _ => .inr
  | modelDef | enumDef => exact heads_of_block h hm hm fun _ _ _ => single_of_member hm hm
  | configProperty => exact consists_of_property h hm
  | fieldDef =>
    obtain ⟨c₁, _, _, hname, hrest, rfl⟩ := h.of_seq
    obtain ⟨c₂, _, rest, htype, htail, rfl⟩ := hrest.of_seq
    obtain ⟨name, rfl, hidentifier⟩ := of_call_rule hname hm
    obtain ⟨type, rfl, hfieldType⟩ := of_call_rule htype nofun
    exact ⟨name, type, rest, rfl, hidentifier, hfieldType, trails_of_derives htail⟩
  | enumValue =>
    obtain ⟨c₁, _, rest, hname, htail, rfl⟩ := h.of_seq
    obtain ⟨name, rfl, hidentifier⟩ := of_call_rule hname hm
    exact ⟨name, rest, rfl, hidentifier, trails_of_derives htail⟩
  | blockAttributeDef =>
    obtain ⟨c₁, _, rest, hattr, hcomment, rfl⟩ := h.of_seq
    obtain ⟨attr, rfl, hrule⟩ := of_call_rule hattr nofun
    exact ⟨attr, rest, rfl, hrule, atMostOne_of_trailing hcomment⟩
  | fieldType => exact consists_of_fieldType h
  | unsupportedType =>
    obtain ⟨c₁, h⟩ := derives_of_lit h
    obtain ⟨c₂, h⟩ := derives_of_lit h
    obtain ⟨c₃, h⟩ := derives_of_lit_last h
    exact of_call_rule h nofun
  | fieldAttribute | blockAttribute => exact consists_of_attribute h
  | functionCall =>
    obtain ⟨c₁, _, _, hname, hargs, rfl⟩ := h.of_seq
    obtain ⟨name, rfl, hpath⟩ := of_call_rule hname nofun
    obtain ⟨args, rfl, harguments⟩ := of_call_rule hargs nofun
    exact ⟨name, args, rfl, hpath, harguments⟩
  | arguments =>
    exact of_bracketed (by decide) (Nat.le_refl _) h fun _ _ _ _ h => of_call_rule h nofun
  | argument =>
    rcases h.of_alt with hnamed | ⟨-, hvalue⟩
    · exact (of_call_rule hnamed hm).mono fun _ _ => trivial
    · exact single_of_value hvalue hm
  | namedArgument =>
    obtain ⟨c₁, _, _, hname, hrest, rfl⟩ := h.of_seq
    obtain ⟨name, rfl, hidentifier⟩ := of_call_rule hname hm
    obtain ⟨c₂, hvalue⟩ := derives_of_lit hrest
    obtain ⟨value, rfl, -⟩ := single_of_value hvalue hm
    exact ⟨name, value, rfl, hidentifier⟩
  | stringLiteral =>
    obtain ⟨c₁, h⟩ := derives_of_lit h
    obtain ⟨c₂, h⟩ := derives_of_lit_last h
    exact of_call_rule h nofun
  | array => trivial
  | listMarker | optionalMarker => exact (Derives.of_word h).2
  | endOfText =>
    cases h with
    | finish hx =>
      split at hx <;> cases hx
      rfl
  | commentText | identifier | path | modelKeyword | enumKeyword | configKeyword | stringContent
  | number | boolean => exact nodes_of_word h rfl

/-- A rule that reads a word spells it. -/
theorem spells_of_derives (hm : (grammar.kind r).outerMode m ≠ .atomic)
    (h : Parses ((grammar.kind r).innerMode m) (grammar.body r) c c' ns) :
    r.Spells (c.textUpTo c') := by
  have hcall : Parses m (.call r) c c' [⟨r, .between c.place c'.place, c.textUpTo c', ns⟩] := by
    refine .call h ?_
    rw [Option.map_some, Grammar.leave, if_neg hm]
  cases r with
  | number =>
    obtain ⟨w, hw, hpast, -⟩ := of_number hcall hm
    rw [Cursor.textUpTo_of_past hpast]
    exact hw
  | boolean =>
    obtain ⟨truth, hpast, -⟩ := of_boolean hcall hm
    exact ⟨truth, Cursor.textUpTo_of_past hpast⟩
  | stringContent =>
    obtain ⟨w, hw, hpast⟩ := of_units h
    rw [Cursor.textUpTo_of_past hpast]
    exact hw
  | listMarker | optionalMarker => exact Cursor.textUpTo_of_past (Derives.of_word h).1
  | _ => trivial

/-- Every tree that is read is formed at all its nodes. -/
theorem formed_of_derives (h : Parses m e c c' ns) :
    ∀ n ∈ ns, n.All Node.Formed :=
  h.all_nodes (fun _ _ _ _ _ hm hbody =>
    ⟨consists_of_derives hm hbody, spells_of_derives hm hbody⟩) _ rfl

end Pseudonym

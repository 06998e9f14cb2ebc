/-
# The shapes of trees

What the nodes that start the children of a node are, by the rule of the node.
A tree that is read has these shapes at all its nodes, so where a part of a
schema takes the text of a child, this child is a word.
-/
import Pseudonym.Proofs.Syntax.Parsed

namespace Pseudonym

namespace Peg

variable {R : Type} {g : Grammar R}

mutual

/-- A property of a node and of all nodes below it. -/
def Node.All (Q : Node R → Prop) : Node R → Prop
  | ⟨r, span, text, children⟩ => Q ⟨r, span, text, children⟩ ∧ Node.AllEach Q children

/-- A property of nodes and of all nodes below them. -/
def Node.AllEach (Q : Node R → Prop) : List (Node R) → Prop
  | [] => True
  | n :: rest => n.All Q ∧ Node.AllEach Q rest

end

theorem Node.allEach_iff {Q : Node R → Prop} {ns : List (Node R)} :
    Node.AllEach Q ns ↔ ∀ n ∈ ns, n.All Q := by
  induction ns with
  | nil => simp [Node.AllEach]
  | cons n ns ih => simp [Node.AllEach, ih]

theorem Node.All.self {Q : Node R → Prop} {n : Node R} (h : n.All Q) : Q n := by
  obtain ⟨r, span, text, children⟩ := n
  exact h.1

theorem Node.All.children {Q : Node R → Prop} {n : Node R} (h : n.All Q) :
    ∀ n' ∈ n.children, n'.All Q := by
  obtain ⟨r, span, text, children⟩ := n
  exact Node.allEach_iff.mp h.2

/-- What holds of the node that a rule leaves behind `c₀`, by what its body has read, holds of all
nodes. -/
theorem Derives.all_nodes_from {Q : Node R → Prop} {c₀ : Cursor}
    (hQ : ∀ r m w c c₁ ns, Cursor.Past w c₀ c → (g.kind r).outerMode m ≠ .atomic →
      Derives g ((g.kind r).innerMode m) (.expr (g.body r)) c (some (c₁, ns)) →
      Q ⟨r, .between c.place c₁.place, c.textUpTo c₁, ns⟩)
    {m : Mode} {t : Goal R} {c : Cursor} {x : Option (Cursor × List (Node R))}
    (h : Derives g m t c x) : ∀ {w}, Cursor.Past w c₀ c → ∀ z ∈ x, ∀ n ∈ z.2, n.All Q := by
  induction h with
  | word hx | one hx =>
    rintro w - z rfl
    obtain ⟨c', -, rfl⟩ := Option.map_eq_some_iff.mp hx
    rintro n ⟨⟩
  | start hx | finish hx =>
    rintro w - z rfl
    split at hx <;> cases hx
    rintro n ⟨⟩
  | @call m r c x y hbody hx ih =>
    rintro w hc z rfl
    obtain ⟨⟨c₁, ns⟩, rfl, rfl⟩ := Option.map_eq_some_iff.mp hx
    by_cases hm : (g.kind r).outerMode m = .atomic
    · simp only [Grammar.leave, if_pos hm]
      rintro n ⟨⟩
    · simp only [Grammar.leave, if_neg hm, List.mem_singleton, forall_eq]
      exact ⟨hQ r m w c c₁ ns hc hm hbody, Node.allEach_iff.mpr (ih hc _ rfl)⟩
  | seq hp _ hx ihp ihq =>
    rintro w hc z rfl n hn
    obtain ⟨z', rfl, rfl⟩ := Option.map_eq_some_iff.mp hx
    rcases List.mem_append.mp hn with hn | hn
    · exact ihp hc _ rfl n hn
    · obtain ⟨v, hv⟩ := hp.past _ rfl
      obtain ⟨b, hb⟩ := g.past_skip _ _
      exact ihq ((hc.trans hv).trans hb) _ rfl n hn
  | seqFails | notAheadFails => rintro w - z ⟨⟩
  | first _ ih | second _ _ _ ih | opt _ ih => exact ih
  | optNone | manyNone | moreNone | notAhead =>
    rintro w - z ⟨⟩
    rintro n ⟨⟩
  | many hp _ ihp ihmore =>
    rintro w hc z ⟨⟩ n hn
    rcases List.mem_append.mp hn with hn | hn
    · exact ihp hc _ rfl n hn
    · obtain ⟨v, hv⟩ := hp.past _ rfl
      exact ihmore (hc.trans hv) _ rfl n hn
  | more hp _ ihp ihmore =>
    rintro w hc z ⟨⟩ n hn
    obtain ⟨b, hb⟩ := g.past_skip _ _
    rcases List.mem_append.mp hn with hn | hn
    · exact ihp (hc.trans hb) _ rfl n hn
    · obtain ⟨v, hv⟩ := hp.past _ rfl
      exact ihmore ((hc.trans hb).trans hv) _ rfl n hn

/-- What holds of the node that a rule leaves, wherever it stands, holds of all nodes. -/
theorem Derives.all_nodes {Q : Node R → Prop}
    (hQ : ∀ r m c c₁ ns, (g.kind r).outerMode m ≠ .atomic →
      Derives g ((g.kind r).innerMode m) (.expr (g.body r)) c (some (c₁, ns)) →
      Q ⟨r, .between c.place c₁.place, c.textUpTo c₁, ns⟩)
    {m : Mode} {t : Goal R} {c : Cursor} {x : Option (Cursor × List (Node R))}
    (h : Derives g m t c x) : ∀ z ∈ x, ∀ n ∈ z.2, n.All Q :=
  h.all_nodes_from (fun r m _ c c₁ ns _ => hQ r m c c₁ ns) (.refl c)

end Peg

open Peg

/-- The rules of the nodes that start the children of a node. -/
def Rule.Leads : Rule → List Rule → Prop
  | .docComment, rs | .lineComment, rs => rs[0]? = some .commentText
  | .commentBlock, rs => ∀ r ∈ rs, r = .docComment ∨ r = .lineComment
  | .stringLiteral, rs => rs[0]? = some .stringContent
  | .unsupportedType, rs => rs[0]? = some .stringLiteral
  | .functionCall, rs | .fieldAttribute, rs | .blockAttribute, rs => rs[0]? = some .path
  | .namedArgument, rs | .fieldDef, rs | .enumValue, rs => rs[0]? = some .identifier
  | .configProperty, rs =>
    rs[0]? = some .identifier ∧ ∀ r ∈ rs[2]?, r = .docComment ∨ r = .lineComment
  | .blockAttributeDef, rs =>
    rs[0]? = some .blockAttribute ∧ ∀ r ∈ rs[1]?, r = .docComment ∨ r = .lineComment
  | .configBlock, rs => rs[0]? = some .configKeyword ∧ rs[1]? = some .identifier
  | .modelDef, rs => rs[0]? = some .modelKeyword ∧ rs[1]? = some .identifier
  | .enumDef, rs => rs[0]? = some .enumKeyword ∧ rs[1]? = some .identifier
  | _, _ => True

/-- A tree all of whose nodes have children as their rules leave them. -/
def Peg.Node.Shaped (n : Tree) : Prop := n.All fun n => n.rule.Leads (n.children.map (·.rule))

variable {m : Mode} {c c' : Cursor} {ns : List Tree} {r : Rule} {e e' : Expr Rule}

theorem of_call_rule (h : Parses m (.call r) c c' ns)
    (hr : (grammar.kind r).outerMode m ≠ .atomic) : Single (fun n => n.rule = r) ns := by
  obtain ⟨children, -, rfl⟩ := h.of_call_node hr
  exact ⟨_, rfl, rfl⟩

/-- The first child of a rule that starts with a call, or with a word and then a call. -/
theorem rule_of_seq (h : Parses m (.seq (.call r) e) c c' ns)
    (hr : (grammar.kind r).outerMode m ≠ .atomic) : (ns.map (·.rule))[0]? = some r := by
  obtain ⟨c₁, _, after, hcall, -, rfl⟩ := h.of_seq
  obtain ⟨n, rfl, rfl⟩ := of_call_rule hcall hr
  rfl

theorem derives_of_lit {w : String}
    (h : Parses m (.seq (Grammar.lit w) e) c c' ns) :
    ∃ c₁, Parses m e c₁ c' ns := by
  obtain ⟨c₁, _, after, hlit, hrest, rfl⟩ := h.of_seq
  obtain ⟨-, rfl⟩ := hlit.of_word
  exact ⟨_, hrest⟩

theorem rules_of_block {member : Expr Rule}
    (h : Parses m (Grammar.block (.call r) member) c c' ns)
    (hr : (grammar.kind r).outerMode m ≠ .atomic) (hm : m ≠ .atomic) :
    (ns.map (·.rule))[0]? = some r ∧ (ns.map (·.rule))[1]? = some .identifier := by
  obtain ⟨c₁, _, _, hkeyword, hrest, rfl⟩ := h.of_seq
  obtain ⟨c₂, _, _, hname, -, rfl⟩ := hrest.of_seq
  obtain ⟨n, rfl, rfl⟩ := of_call_rule hkeyword hr
  obtain ⟨n', rfl, hn'⟩ := of_call_rule hname hm
  exact ⟨rfl, congrArg some hn'⟩

theorem of_comment_rule (h : Parses m Grammar.comment c c' ns) :
    Single (fun n => n.rule = .docComment ∨ n.rule = .lineComment) ns := by
  obtain ⟨n, rfl, hcomment, -⟩ := of_comment h
  exact ⟨n, rfl, isComment_cases hcomment⟩

theorem rules_of_trailing
    (h : Parses m Grammar.trailingComment c c' ns) :
    ∀ r ∈ (ns.map (·.rule))[0]?, r = .docComment ∨ r = .lineComment := by
  rcases h.of_opt with hcomment | ⟨-, rfl⟩
  · obtain ⟨n, rfl, hn⟩ := of_comment_rule hcomment
    rintro _ ⟨⟩
    exact hn
  · nofun

theorem single_of_value (h : Parses m Grammar.value c c' ns)
    (hm : m ≠ .atomic) : Single (fun _ => True) ns := by
  have hcall : ∀ {r : Rule} {c' ns}, Parses m (.call r) c c' ns →
      (grammar.kind r).outerMode m ≠ .atomic → Single (fun _ => True) ns := fun h hr => by
    obtain ⟨n, rfl, -⟩ := of_call_rule h hr
    exact ⟨n, rfl, trivial⟩
  rcases h.of_alt with h | ⟨-, h⟩
  · exact hcall h nofun
  rcases h.of_alt with h | ⟨-, h⟩
  · exact hcall h hm
  rcases h.of_alt with h | ⟨-, h⟩
  · exact hcall h nofun
  rcases h.of_alt with h | ⟨-, h⟩
  · exact hcall h hm
  rcases h.of_alt with h | ⟨-, h⟩
  · exact hcall h hm
  · exact hcall h hm

theorem leads_of_property
    (h : Parses m (Grammar.body .configProperty) c c' ns)
    (hm : m ≠ .atomic) : Rule.configProperty.Leads (ns.map (·.rule)) := by
  obtain ⟨c₁, _, _, hname, hrest, rfl⟩ := h.of_seq
  obtain ⟨n, rfl, hn⟩ := of_call_rule hname hm
  obtain ⟨c₂, hrest⟩ := derives_of_lit hrest
  obtain ⟨c₃, _, after, hvalue, hcomment, rfl⟩ := hrest.of_seq
  obtain ⟨v, rfl, -⟩ := single_of_value hvalue hm
  exact ⟨congrArg some hn, rules_of_trailing hcomment⟩

theorem leads_of_blockAttributeDef
    (h : Parses m (Grammar.body .blockAttributeDef) c c' ns) :
    Rule.blockAttributeDef.Leads (ns.map (·.rule)) := by
  obtain ⟨c₁, _, after, hattr, hcomment, rfl⟩ := h.of_seq
  obtain ⟨n, rfl, hn⟩ := of_call_rule hattr nofun
  exact ⟨congrArg some hn, rules_of_trailing hcomment⟩

theorem leads_of_commentBlock
    (h : Parses m (Grammar.body .commentBlock) c c' ns) :
    Rule.commentBlock.Leads (ns.map (·.rule)) := by
  obtain ⟨c₁, _, rest, hfirst, hrest, rfl⟩ := h.of_seq
  have hrest : ∀ n ∈ rest, n.rule = .docComment ∨ n.rule = .lineComment := by
    refine of_rounds hrest fun c₁ c₂ ns hround => ?_
    obtain ⟨_, _, _, hline, hcomment, rfl⟩ := hround.of_seq
    obtain rfl := of_newline hline
    exact mem_of_single (of_comment_rule hcomment)
  have hfirst := mem_of_single (of_comment_rule hfirst)
  intro r hr
  obtain ⟨n, hn, rfl⟩ := List.mem_map.mp hr
  rcases List.mem_append.mp hn with hn | hn
  · exact hfirst n hn
  · exact hrest n hn

/-- A rule leaves children of its shape. -/
theorem leads_of_derives (hm : (grammar.kind r).outerMode m ≠ .atomic)
    (h : Parses ((grammar.kind r).innerMode m) (grammar.body r) c c' ns) :
    r.Leads (ns.map (·.rule)) := by
  cases r with
  | docComment | lineComment =>
    obtain ⟨c₁, h⟩ := derives_of_lit h
    obtain ⟨n, rfl, hn⟩ := of_call_rule h nofun
    exact congrArg some hn
  | commentBlock => exact leads_of_commentBlock h
  | stringLiteral =>
    obtain ⟨c₁, h⟩ := derives_of_lit h
    exact rule_of_seq h nofun
  | unsupportedType =>
    obtain ⟨c₁, h⟩ := derives_of_lit h
    obtain ⟨c₂, h⟩ := derives_of_lit h
    exact rule_of_seq h nofun
  | functionCall => exact rule_of_seq h nofun
  | fieldAttribute | blockAttribute =>
    obtain ⟨c₁, h⟩ := derives_of_lit h
    exact rule_of_seq h nofun
  | namedArgument | fieldDef | enumValue => exact rule_of_seq h hm
  | configProperty => exact leads_of_property h hm
  | blockAttributeDef => exact leads_of_blockAttributeDef h
  | configBlock | modelDef | enumDef => exact rules_of_block h hm hm
  | _ => trivial

/-- Every tree that is read has its shape. -/
theorem shaped_of_derives {e : Expr Rule} (h : Parses m e c c' ns) :
    ∀ n ∈ ns, n.Shaped :=
  h.all_nodes (fun _ _ _ _ _ hm hbody => leads_of_derives hm hbody) _ rfl

end Pseudonym

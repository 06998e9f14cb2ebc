/-
# Trees up to spans

A tree with other spans, and of its texts only those that a schema is made of:
the words, and the texts of comments without white space at their ends. A tree
of the right shape and its bare tree are the same schema, but for the spans
(`Schema.mirrors_ofNode`). So two texts whose trees are equal when bare are
read as schemas that are equal up to spans.
-/
import Mathlib.Data.List.Forall2
import Pseudonym.Proofs.Obfuscate.Spans
import Pseudonym.Proofs.Peg.Running
import Pseudonym.Proofs.Syntax.Shapes

namespace Pseudonym

open Peg

/-- What a schema takes of the text of a node. -/
def Rule.kept : Rule → List Char → List Char
  | .commentText, text => trimBlanks text
  | .identifier, text | .path, text | .modelKeyword, text | .enumKeyword, text
  | .configKeyword, text | .stringContent, text | .number, text | .boolean, text => text
  | _, _ => []

theorem Rule.kept_of_kind {r : Rule} (hr : Grammar.kind r ≠ .atomic) (w w' : List Char) :
    r.kept w = r.kept w' := by
  cases r <;> first | rfl | exact absurd rfl hr

mutual

/-- The tree with other spans and the texts that are kept. -/
def Peg.Node.bare (f : Span → Span) : Tree → Tree
  | ⟨r, span, text, children⟩ => ⟨r, f span, r.kept text, Peg.Node.bareEach f children⟩

@[inherit_doc Peg.Node.bare]
def Peg.Node.bareEach (f : Span → Span) : List Tree → List Tree
  | [] => []
  | n :: rest => n.bare f :: Peg.Node.bareEach f rest

end

variable {f : Span → Span} {n : Tree} {ns : List Tree}

theorem Peg.Node.bareEach_eq_map : ∀ ns : List Tree, Node.bareEach f ns = ns.map (·.bare f)
  | [] => rfl
  | n :: ns => by rw [Node.bareEach, bareEach_eq_map ns, List.map_cons]

@[simp] theorem Peg.Node.rule_bare (n : Tree) : (n.bare f).rule = n.rule := by
  obtain ⟨r, span, text, children⟩ := n
  rfl

@[simp] theorem Peg.Node.span_bare (n : Tree) : (n.bare f).span = f n.span := by
  obtain ⟨r, span, text, children⟩ := n
  rfl

@[simp] theorem Peg.Node.text_bare (n : Tree) : (n.bare f).text = n.rule.kept n.text := by
  obtain ⟨r, span, text, children⟩ := n
  rfl

@[simp] theorem Peg.Node.children_bare (n : Tree) :
    (n.bare f).children = n.children.map (·.bare f) := by
  obtain ⟨r, span, text, children⟩ := n
  exact bareEach_eq_map children

theorem Peg.Node.map_bare_congr {f' : Span → Span} {ns ns' : List Tree}
    (h : List.Forall₂ (fun n n' => n.bare f = n'.bare f') ns ns') :
    ns.map (·.bare f) = ns'.map (·.bare f') := by
  rw [← List.forall₂_eq_eq_eq, List.forall₂_map_left_iff, List.forall₂_map_right_iff]
  exact h

theorem Peg.Node.bare_congr {f' : Span → Span} {r : Rule} {span span' : Span} {w w' : List Char}
    {ns ns' : List Tree} (hspan : f span = f' span') (htext : r.kept w = r.kept w')
    (hns : List.Forall₂ (fun n n' => n.bare f = n'.bare f') ns ns') :
    Node.bare f ⟨r, span, w, ns⟩ = Node.bare f' ⟨r, span', w', ns'⟩ := by
  rw [Node.bare, Node.bare, hspan, htext, bareEach_eq_map, bareEach_eq_map, map_bare_congr hns]

theorem Peg.Node.Shaped.leads {r : Rule} (h : n.Shaped) (hrule : n.rule = r) :
    r.Leads (n.children.map (·.rule)) :=
  hrule ▸ Node.All.self h

theorem Peg.Node.Shaped.children (h : n.Shaped) : ∀ n' ∈ n.children, n'.Shaped :=
  Node.All.children h

/-! ### Results that follow -/

/-- Where one computation succeeds, another one gives the image of its result. -/
def Mirrors {α β ε : Type} (φ : α → β) (x : Except ε α) (y : Except ε β) : Prop :=
  ∀ a, x = .ok a → y = .ok (φ a)

namespace Mirrors

variable {α α' β β' ε : Type} {φ : α → β} {ψ : α' → β'} {x : Except ε α} {y : Except ε β}

theorem ok {a : α} {b : β} (h : b = φ a) : Mirrors φ (.ok a : Except ε α) (.ok b) := by
  rintro _ ⟨⟩
  rw [h]

theorem error (e : ε) : Mirrors φ (.error e) y := nofun

theorem bind {k : α → Except ε α'} {k' : β → Except ε β'} (h : Mirrors φ x y)
    (hk : ∀ a, Mirrors ψ (k a) (k' (φ a))) : Mirrors ψ (x >>= k) (y >>= k') := by
  intro b hb
  cases x with
  | error e => cases hb
  | ok a =>
    rw [h a rfl]
    exact hk a b hb

theorem mapM {δ δ' : Type} {k : δ → Except ε α} {k' : δ' → Except ε β} {g : δ → δ'} :
    ∀ {ds : List δ}, (∀ d ∈ ds, Mirrors φ (k d) (k' (g d))) →
    Mirrors (List.map φ) (ds.mapM k) ((ds.map g).mapM k')
  | [], _ => by
    rw [List.map_nil, List.mapM_nil, List.mapM_nil]
    exact ok rfl
  | d :: ds, h => by
    rw [List.map_cons, List.mapM_cons, List.mapM_cons]
    exact (h d List.mem_cons_self).bind fun a =>
      (mapM fun d' hd' => h d' (List.mem_cons_of_mem d hd')).bind fun as => ok rfl

end Mirrors

/-! ### Words -/

/-- A node with another span and the same text. -/
theorem ident_bare (h : n.rule = .identifier ∨ n.rule = .path) :
    (n.bare f).ident = n.ident.mapSpan f := by
  rcases h with h | h <;> simp [Node.ident, Node.string, Ident.mapSpan, h, Rule.kept]

theorem rule_eq_of_leads {r : Rule} (h : ((n :: ns).map (·.rule))[0]? = some r) : n.rule = r := by
  simpa using h

theorem comment_bare (h : n.Shaped) (hrule : n.rule = .docComment ∨ n.rule = .lineComment) :
    (n.bare f).comment = n.comment.mapSpan f := by
  have hleads : (n.children.map (·.rule))[0]? = some .commentText := by
    rcases hrule with hrule | hrule <;> exact h.leads hrule
  cases hchildren : n.children with
  | nil =>
    rw [hchildren] at hleads
    cases hleads
  | cons text rest =>
    rw [hchildren] at hleads
    have htext := rule_eq_of_leads hleads
    simp [Node.comment, Comment.mapSpan, hchildren, Node.firstText, htext, Rule.kept,
      trimBlanks_of_trimmed (trimmed_trimBlanks text.text)]

theorem comments_bare (h : ∀ n ∈ ns, n.Shaped)
    (hrule : ∀ n ∈ ns, n.rule = .docComment ∨ n.rule = .lineComment) :
    (ns.map (·.bare f)).map Node.comment = (ns.map Node.comment).map (·.mapSpan f) := by
  rw [List.map_map, List.map_map]
  exact List.map_congr_left fun n hn => comment_bare (h n hn) (hrule n hn)

theorem lastComment?_bare (h : ∀ n ∈ ns, n.Shaped) :
    Node.lastComment? (ns.map (·.bare f)) = (Node.lastComment? ns).map (·.mapSpan f) := by
  have hfilter : (ns.map (·.bare f)).filter Node.isComment =
      (ns.filter Node.isComment).map (·.bare f) := by
    rw [List.filter_map]
    congr 2
    funext n
    simp [Node.isComment]
  rw [Node.lastComment?, Node.lastComment?, hfilter, List.getLast?_map, Option.map_map,
    Option.map_map]
  cases hlast : (ns.filter Node.isComment).getLast? with
  | none => rfl
  | some n =>
    obtain ⟨hmem, hcomment⟩ := List.mem_filter.mp (List.mem_of_getLast? hlast)
    exact congrArg some (comment_bare (h n hmem) (isComment_cases hcomment))

theorem headComment_bare (h : ∀ n ∈ ns, n.Shaped)
    (hrule : ∀ r ∈ (ns.map (·.rule))[0]?, r = .docComment ∨ r = .lineComment) :
    (ns.map (·.bare f)).head?.map Node.comment = (ns.head?.map Node.comment).map (·.mapSpan f) := by
  cases ns with
  | nil => rfl
  | cons n ns =>
    exact congrArg some (comment_bare (h n List.mem_cons_self) (hrule _ rfl))

/-! ### Values -/

mutual

/-- A value does not depend on what is left out of its tree. -/
theorem Value.mirrors_ofNode : ∀ n : Tree, n.Shaped →
    Mirrors (Value.mapSpan f) (Value.ofNode n) (Value.ofNode (n.bare f))
  | ⟨r, span, text, children⟩, h => by
    have hleads := h.1
    rw [Node.bare]
    cases r with
    | stringLiteral =>
      cases children with
      | nil => cases hleads
      | cons content rest =>
        obtain ⟨r, span, text, below⟩ := content
        obtain rfl : r = .stringContent := rule_eq_of_leads hleads
        rw [Value.ofNode, Value.ofNode]
        exact .ok (by rw [Value.mapSpan]; rfl)
    | number =>
      rw [Value.ofNode, Value.ofNode]
      refine .ok ?_
      rw [Rule.kept, Value.ofNumeral]
      cases (wholeNumber? text).bind int64? <;> rw [Value.mapSpan]
    | boolean =>
      rw [Value.ofNode, Value.ofNode]
      exact .ok (by rw [Value.mapSpan]; rfl)
    | path =>
      rw [Value.ofNode, Value.ofNode]
      exact .ok (by rw [Value.mapSpan]; rfl)
    | functionCall =>
      match children, hleads, h with
      | [], hleads, _ => cases hleads
      | [⟨r, span', text', below⟩], hleads, _ =>
        obtain rfl : r = .path := rule_eq_of_leads hleads
        rw [Value.ofNode, Node.bareEach, Node.bareEach, Value.ofNode]
        exact .ok (by rw [Value.mapSpan, Argument.mapSpanEach]; rfl)
      | ⟨r, span', text', below⟩ :: args :: rest, hleads, h =>
        obtain rfl : r = .path := rule_eq_of_leads hleads
        rw [Value.ofNode, Node.bareEach, Node.bareEach, Value.ofNode]
        exact (Argument.mirrors_listOfNode args h.2.2.1).bind fun a =>
          .ok (by rw [Value.mapSpan]; rfl)
    | array =>
      rw [Value.ofNode, Value.ofNode]
      exact (Value.mirrors_listOfNodes children h.2).bind fun a => .ok (by rw [Value.mapSpan])
    | _ =>
      intro v hv
      simp [Value.ofNode] at hv

theorem Value.mirrors_listOfNodes : ∀ ns : List Tree,
    Node.AllEach (fun n => n.rule.Leads (n.children.map (·.rule))) ns →
    Mirrors (Value.mapSpanEach f) (Value.listOfNodes ns) (Value.listOfNodes (Node.bareEach f ns))
  | [], _ => by
    rw [Node.bareEach, Value.listOfNodes]
    exact .ok rfl
  | n :: rest, h => by
    rw [Node.bareEach, Value.listOfNodes, Value.listOfNodes]
    exact (Value.mirrors_ofNode n h.1).bind fun value =>
      (Value.mirrors_listOfNodes rest h.2).bind fun values => .ok (by rw [Value.mapSpanEach])

theorem Argument.mirrors_ofNode : ∀ n : Tree, n.Shaped →
    Mirrors (fun a => ⟨a.name.map (·.mapSpan f), a.value.mapSpan f, f a.span⟩)
      (Argument.ofNode n) (Argument.ofNode (n.bare f))
  | ⟨r, span, text, []⟩, _ => by
    rw [Argument.ofNode]
    exact .error _
  | ⟨r, span, text, ⟨r', span', text', below⟩ :: rest⟩, h => by
    rw [Node.bare, Node.bareEach, Node.bare]
    have hbelow := h.2.1
    by_cases hr' : r' = .namedArgument
    · subst hr'
      match below, hbelow with
      | [], _ =>
        rw [Argument.ofNode]
        exact .error _
      | [_], _ =>
        rw [Argument.ofNode]
        exact .error _
      | ⟨r, span', text', below⟩ :: value :: _, hbelow =>
        obtain rfl : r = .identifier := rule_eq_of_leads hbelow.1
        rw [Node.bareEach, Node.bareEach, Argument.ofNode, Argument.ofNode]
        exact (Value.mirrors_ofNode value hbelow.2.2.1).bind fun v => .ok rfl
    · rw [Argument.ofNode, Argument.ofNode]
      · exact (Value.mirrors_ofNode ⟨r', span', text', below⟩ hbelow).bind fun v => .ok rfl
      · rintro _ _ _ ⟨⟩
        exact hr' rfl
      · rintro _ _ _ ⟨⟩
        exact hr' rfl

theorem Argument.mirrors_listOfNodes : ∀ ns : List Tree,
    Node.AllEach (fun n => n.rule.Leads (n.children.map (·.rule))) ns →
    Mirrors (Argument.mapSpanEach f) (Argument.listOfNodes ns)
      (Argument.listOfNodes (Node.bareEach f ns))
  | [], _ => by
    rw [Node.bareEach, Argument.listOfNodes]
    exact .ok rfl
  | n :: rest, h => by
    rw [Node.bareEach, Argument.listOfNodes, Argument.listOfNodes, Node.rule_bare]
    split
    · exact (Argument.mirrors_ofNode n h.1).bind fun arg =>
        (Argument.mirrors_listOfNodes rest h.2).bind fun args =>
          .ok (by cases arg; rw [Argument.mapSpanEach])
    · exact Argument.mirrors_listOfNodes rest h.2

theorem Argument.mirrors_listOfNode : ∀ n : Tree, n.Shaped →
    Mirrors (Argument.mapSpanEach f) (Argument.listOfNode n) (Argument.listOfNode (n.bare f))
  | ⟨r, span, text, children⟩, h => by
    rw [Node.bare, Argument.listOfNode, Argument.listOfNode]
    exact Argument.mirrors_listOfNodes children h.2

end

/-! ### Fields -/

theorem Attribute.mirrors_ofNode (h : n.Shaped)
    (hrule : n.rule = .fieldAttribute ∨ n.rule = .blockAttribute) :
    Mirrors (Retouch.mapSpan f).onAttribute (Attribute.ofNode n) (Attribute.ofNode (n.bare f)) := by
  have hleads : (n.children.map (·.rule))[0]? = some .path := by
    rcases hrule with hrule | hrule <;> exact h.leads hrule
  have hchildren := h.children
  rw [Attribute.ofNode, Attribute.ofNode, Node.children_bare, Node.span_bare]
  generalize n.children = children at hleads hchildren ⊢
  rcases children with _ | ⟨name, _ | ⟨args, rest⟩⟩
  · cases hleads
  · have hname := ident_bare (f := f) (.inr (rule_eq_of_leads hleads))
    exact .ok (congrArg (Attribute.mk · [] (f n.span)) hname)
  · have hname := ident_bare (f := f) (.inr (rule_eq_of_leads hleads))
    have hargs := Argument.mirrors_listOfNode (f := f) args
      (hchildren args (List.mem_cons_of_mem _ List.mem_cons_self))
    refine hargs.bind fun as => .ok ?_
    rw [hname, Argument.mapSpanEach_eq_map]
    rfl

theorem Attribute.mirrors_listOfNodes (h : ∀ n ∈ ns, n.Shaped) :
    Mirrors (List.map (Retouch.mapSpan f).onAttribute) (Attribute.listOfNodes ns)
      (Attribute.listOfNodes (ns.map (·.bare f))) := by
  have hfilter : (ns.map (·.bare f)).filter (·.rule = .fieldAttribute) =
      (ns.filter (·.rule = .fieldAttribute)).map (·.bare f) := by
    rw [List.filter_map]
    congr 2
    funext n
    simp
  rw [Attribute.listOfNodes, Attribute.listOfNodes, hfilter]
  refine .mapM fun n hn => ?_
  obtain ⟨hmem, hrule⟩ := List.mem_filter.mp hn
  exact Attribute.mirrors_ofNode (h n hmem) (.inl (of_decide_eq_true hrule))

theorem FieldType.ofNode?_bare (h : n.Shaped) :
    FieldType.ofNode? (n.bare f) = (FieldType.ofNode? n).map (Retouch.mapSpan f).onType := by
  obtain ⟨r, span, text, children⟩ := n
  cases r with
  | identifier =>
    have hident : (Node.bare f ⟨.identifier, span, text, children⟩).ident =
        (Node.ident ⟨.identifier, span, text, children⟩).mapSpan f := ident_bare (.inl rfl)
    simp only [FieldType.ofNode?, Node.rule_bare, Node.string, Node.text_bare, Rule.kept, hident]
    cases ScalarType.ofWord? (.ofList text) <;> rfl
  | unsupportedType =>
    rcases children with _ | ⟨⟨r, _, _, _ | ⟨⟨r', _, _, _⟩, _⟩⟩, _⟩
    · cases h.1
    · obtain rfl : r = .stringLiteral := rule_eq_of_leads h.1
      cases h.2.1.1
    · obtain rfl : r = .stringLiteral := rule_eq_of_leads h.1
      obtain rfl : r' = .stringContent := rule_eq_of_leads h.2.1.1
      rfl
  | _ => rfl

theorem TypeModifier.ofNodes_bare (ns : List Tree) :
    TypeModifier.ofNodes (ns.map (·.bare f)) = TypeModifier.ofNodes ns := by
  simp [TypeModifier.ofNodes, List.any_map, Function.comp_def]

theorem Field.mirrors_ofNode (h : n.Shaped) (hrule : n.rule = .fieldDef) :
    Mirrors (Retouch.mapSpan f).onField (Field.ofNode n) (Field.ofNode (n.bare f)) := by
  have hleads := h.leads hrule
  have hchildren := h.children
  rw [Field.ofNode, Field.ofNode, Node.children_bare, Node.span_bare]
  generalize n.children = children at hleads hchildren ⊢
  rcases children with _ | ⟨name, _ | ⟨type, rest⟩⟩
  · cases hleads
  · exact .error _
  · have hname := ident_bare (f := f) (.inl (rule_eq_of_leads hleads))
    have htype := hchildren type (List.mem_cons_of_mem _ List.mem_cons_self)
    have hrest : ∀ n ∈ rest, n.Shaped := fun n hn =>
      hchildren n (List.mem_cons_of_mem _ (List.mem_cons_of_mem _ hn))
    have hlast : ((type.children.map (·.bare f)).filterMap FieldType.ofNode?).getLast? =
        ((type.children.filterMap FieldType.ofNode?).getLast?).map (Retouch.mapSpan f).onType := by
      rw [← List.getLast?_map, List.filterMap_map, List.map_filterMap]
      congr 1
      exact List.filterMap_congr fun n hn => FieldType.ofNode?_bare (htype.children n hn)
    simp only [List.map_cons, Node.children_bare, hlast]
    cases (type.children.filterMap FieldType.ofNode?).getLast? with
    | none => exact .error _
    | some fieldType =>
      refine (Attribute.mirrors_listOfNodes hrest).bind fun as => .ok ?_
      rw [hname, TypeModifier.ofNodes_bare, lastComment?_bare hrest]
      rfl

/-! ### Blocks -/

theorem BlockAttribute.mirrors_ofNode (h : n.Shaped) (hrule : n.rule = .blockAttributeDef) :
    Mirrors (Retouch.mapSpan f).onBlockAttribute (BlockAttribute.ofNode n)
      (BlockAttribute.ofNode (n.bare f)) := by
  have hleads := h.leads hrule
  have hchildren := h.children
  rw [BlockAttribute.ofNode, BlockAttribute.ofNode, Node.children_bare, Node.span_bare]
  generalize n.children = children at hleads hchildren ⊢
  cases children with
  | nil => cases hleads.1
  | cons attr rest =>
    have hattr := hchildren attr List.mem_cons_self
    have hrest : ∀ n ∈ rest, n.Shaped := fun n hn => hchildren n (List.mem_cons_of_mem _ hn)
    refine (Attribute.mirrors_ofNode hattr (.inr (rule_eq_of_leads hleads.1))).bind fun a => .ok ?_
    rw [headComment_bare hrest hleads.2]
    rfl

/-- A member of a block does not depend on what is left out of its tree, if what its rule stands
for does not. -/
theorem mirrors_member? {α : Type} {comment : Comment → α}
    {kinds : List (Rule × (Tree → Except SyntaxError α))} {φ : α → α} (h : n.Shaped)
    (hkinds : ∀ kind ∈ kinds, n.rule = kind.1 → Mirrors φ (kind.2 n) (kind.2 (n.bare f)))
    (hcomment : ∀ c : Comment, comment (c.mapSpan f) = φ (comment c)) :
    Mirrors (Option.map φ) (n.member? comment kinds) ((n.bare f).member? comment kinds) := by
  have hbare : (n.bare f).isComment = n.isComment := by rw [Node.isComment, Node.rule_bare]; rfl
  rw [Node.member?, Node.member?, hbare, Node.rule_bare]
  split
  next hrule =>
    refine .ok ?_
    rw [comment_bare h (isComment_cases hrule), hcomment]
    rfl
  next =>
    cases hfind : kinds.find? (·.1 = n.rule) with
    | none => exact .ok rfl
    | some kind =>
      have hrule : kind.1 = n.rule := by simpa using List.find?_some hfind
      exact (hkinds kind (List.mem_of_find?_eq_some hfind) hrule.symm).bind fun _ => .ok rfl

theorem ModelMember.mirrors_ofNode? (h : n.Shaped) :
    Mirrors (Option.map (Retouch.mapSpan f).onModelMember) (ModelMember.ofNode? n)
      (ModelMember.ofNode? (n.bare f)) := by
  refine mirrors_member? h (List.forall_mem_cons.mpr ⟨fun hrule => ?_,
    List.forall_mem_singleton.mpr fun hrule => ?_⟩) fun _ => rfl
  · exact (Field.mirrors_ofNode h hrule).bind fun x => .ok rfl
  · exact (BlockAttribute.mirrors_ofNode h hrule).bind fun x => .ok rfl

/-- The members of a block. -/
theorem mirrors_members {α : Type} {ofNode? : Tree → Except SyntaxError (Option α)} {φ : α → α}
    (hφ : ∀ n : Tree, n.Shaped → Mirrors (Option.map φ) (ofNode? n) (ofNode? (n.bare f)))
    (h : ∀ n ∈ ns, n.Shaped) :
    Mirrors (List.map (Option.map φ)) (ns.mapM ofNode?) ((ns.map (·.bare f)).mapM ofNode?) :=
  .mapM fun n hn => hφ n (h n hn)

/-- The name and the members of a block do not depend on what is left out of its tree. -/
theorem mirrors_block {α : Type} {ofNode? : Tree → Except SyntaxError (Option α)} {φ : α → α}
    (word : String)
    (hφ : ∀ n : Tree, n.Shaped → Mirrors (Option.map φ) (ofNode? n) (ofNode? (n.bare f)))
    (h : n.Shaped) (hleads : (n.children.map (·.rule))[1]? = some .identifier) :
    Mirrors (fun b => (b.1.mapSpan f, b.2.map φ)) (n.block word ofNode?)
      ((n.bare f).block word ofNode?) := by
  have hchildren := h.children
  rw [Node.block, Node.block, Node.children_bare]
  generalize n.children = children at hleads hchildren ⊢
  rcases children with _ | ⟨keyword, _ | ⟨name, rest⟩⟩
  · exact .error _
  · exact .error _
  · have hname := ident_bare (f := f) (n := name) (.inl (by simpa using hleads))
    refine (mirrors_members hφ fun n hn =>
      hchildren n (List.mem_cons_of_mem _ (List.mem_cons_of_mem _ hn))).bind fun xs => .ok ?_
    rw [hname, filterMap_id_map]

theorem Model.mirrors_ofNode (h : n.Shaped) (hrule : n.rule = .modelDef) :
    Mirrors (fun m => ⟨m.name.mapSpan f, m.members.map (Retouch.mapSpan f).onModelMember, f m.span⟩)
      (Model.ofNode n) (Model.ofNode (n.bare f)) := by
  have hleads := h.leads hrule
  exact (mirrors_block "model" (fun n => ModelMember.mirrors_ofNode?) h hleads.2).bind fun b =>
    .ok (by rw [Node.span_bare])

theorem EnumValue.mirrors_ofNode (h : n.Shaped) (hrule : n.rule = .enumValue) :
    Mirrors (fun v => ⟨v.name.mapSpan f, v.attributes.map (Retouch.mapSpan f).onAttribute,
      v.comment.map (·.mapSpan f), f v.span⟩) (EnumValue.ofNode n) (EnumValue.ofNode (n.bare f)) := by
  have hleads := h.leads hrule
  have hchildren := h.children
  rw [EnumValue.ofNode, EnumValue.ofNode, Node.children_bare, Node.span_bare]
  generalize n.children = children at hleads hchildren ⊢
  cases children with
  | nil => cases hleads
  | cons name rest =>
    have hname := ident_bare (f := f) (.inl (rule_eq_of_leads hleads))
    have hrest : ∀ n ∈ rest, n.Shaped := fun n hn => hchildren n (List.mem_cons_of_mem _ hn)
    refine (Attribute.mirrors_listOfNodes hrest).bind fun as => .ok ?_
    rw [hname, lastComment?_bare hrest]

theorem EnumMember.mirrors_ofNode? (h : n.Shaped) :
    Mirrors (Option.map (Retouch.mapSpan f).onEnumMember) (EnumMember.ofNode? n)
      (EnumMember.ofNode? (n.bare f)) := by
  refine mirrors_member? h (List.forall_mem_cons.mpr ⟨fun hrule => ?_,
    List.forall_mem_singleton.mpr fun hrule => ?_⟩) fun _ => rfl
  · exact (EnumValue.mirrors_ofNode h hrule).bind fun x => .ok rfl
  · exact (BlockAttribute.mirrors_ofNode h hrule).bind fun x => .ok rfl

theorem Enum.mirrors_ofNode (h : n.Shaped) (hrule : n.rule = .enumDef) :
    Mirrors (fun e => ⟨e.name.mapSpan f, e.members.map (Retouch.mapSpan f).onEnumMember, f e.span⟩)
      (Enum.ofNode n) (Enum.ofNode (n.bare f)) := by
  have hleads := h.leads hrule
  exact (mirrors_block "enum" (fun n => EnumMember.mirrors_ofNode?) h hleads.2).bind fun b =>
    .ok (by rw [Node.span_bare])

theorem Property.mirrors_ofNode (h : n.Shaped) (hrule : n.rule = .configProperty) :
    Mirrors (fun p => ⟨p.name.mapSpan f, p.value.mapSpan f, p.comment.map (·.mapSpan f), f p.span⟩)
      (Property.ofNode n) (Property.ofNode (n.bare f)) := by
  have hleads := h.leads hrule
  have hchildren := h.children
  rw [Property.ofNode, Property.ofNode, Node.children_bare, Node.span_bare]
  generalize n.children = children at hleads hchildren ⊢
  rcases children with _ | ⟨name, _ | ⟨value, rest⟩⟩
  · cases hleads.1
  · exact .error _
  · have hname := ident_bare (f := f) (.inl (rule_eq_of_leads hleads.1))
    have hrest : ∀ n ∈ rest, n.Shaped := fun n hn =>
      hchildren n (List.mem_cons_of_mem _ (List.mem_cons_of_mem _ hn))
    refine (Value.mirrors_ofNode value
      (hchildren value (List.mem_cons_of_mem _ List.mem_cons_self))).bind fun v => .ok ?_
    rw [hname, headComment_bare hrest hleads.2]

theorem ConfigMember.mirrors_ofNode? (h : n.Shaped) :
    Mirrors (Option.map (Retouch.mapSpan f).onConfigMember) (ConfigMember.ofNode? n)
      (ConfigMember.ofNode? (n.bare f)) :=
  mirrors_member? h (List.forall_mem_singleton.mpr fun hrule =>
    (Property.mirrors_ofNode h hrule).bind fun _ => .ok rfl) fun _ => rfl

theorem ConfigBlock.mirrors_ofNode (h : n.Shaped) (hrule : n.rule = .configBlock) :
    Mirrors (fun b => ⟨b.kind, b.name.mapSpan f,
      b.members.map (Retouch.mapSpan f).onConfigMember, f b.span⟩)
      (ConfigBlock.ofNode n) (ConfigBlock.ofNode (n.bare f)) := by
  have hleads := h.leads hrule
  have hblock := mirrors_block (f := f) "block" (fun n => ConfigMember.mirrors_ofNode?) h hleads.2
  rw [ConfigBlock.ofNode, ConfigBlock.ofNode, Node.children_bare, Node.span_bare]
  cases hchildren : n.children with
  | nil => exact .error _
  | cons keyword rest =>
    rw [hchildren] at hleads
    have hkeyword : (keyword.bare f).string = keyword.string := by
      rw [Node.string, Node.text_bare, rule_eq_of_leads hleads.1]
      rfl
    simp only [List.map_cons, hkeyword]
    cases ConfigKind.ofWord? keyword.string with
    | none => exact .error _
    | some kind => exact hblock.bind fun b => .ok rfl

/-! ### Schemas -/

theorem Declaration.mirrors_ofNode? (h : n.Shaped) :
    Mirrors (Option.map (Retouch.mapSpan f).onDeclaration) (Declaration.ofNode? n)
      (Declaration.ofNode? (n.bare f)) := by
  rw [Declaration.ofNode?, Declaration.ofNode?, Node.rule_bare]
  split
  next hrule =>
    have hleads := h.leads hrule
    refine .ok ?_
    rw [Node.children_bare, Node.span_bare, comments_bare h.children fun n hn =>
      hleads _ (List.mem_map_of_mem hn)]
    rfl
  next hrule => exact (ConfigBlock.mirrors_ofNode h hrule).bind fun x => .ok rfl
  next hrule => exact (Model.mirrors_ofNode h hrule).bind fun x => .ok rfl
  next hrule => exact (Enum.mirrors_ofNode h hrule).bind fun x => .ok rfl
  next => exact .ok rfl

/-- A schema is that of its bare tree, but for the spans. -/
theorem Schema.mirrors_ofNode (h : n.Shaped) :
    Mirrors (Schema.retouch (.mapSpan f)) (Schema.ofNode n) (Schema.ofNode (n.bare f)) := by
  rw [Schema.ofNode, Schema.ofNode, Node.children_bare]
  refine (mirrors_members (fun n => Declaration.mirrors_ofNode?) h.children).bind fun xs => .ok ?_
  rw [filterMap_id_map]
  rfl

/-- What reading a text gives, once attempts count: its tree is a schema, or the furthest attempts
are the error. -/
theorem Schema.parse_cases (text : String) :
    (∃ a, grammar.run (.expr (.call .schema)) ⟨.spaced, .consuming⟩ (.ofText text.toList) .none =
        ⟨none, a⟩ ∧ Schema.parse text = .error (.ofAttempts a)) ∨
    ∃ c n a s, grammar.run (.expr (.call .schema)) ⟨.spaced, .consuming⟩ (.ofText text.toList) .none =
        ⟨some (c, [n]), a⟩ ∧ n.Shaped ∧ Schema.ofNode n = .ok s ∧ Schema.parse text = .ok s := by
  rw [← Layering.read_eq_run survey.toLayering]
  have hread := Layering.read_derives survey.toLayering Rule.schema text.toList
  unfold Schema.parse
  generalize grammar.read .schema text.toList = o at hread
  obtain ⟨_ | ⟨c, ns⟩, a⟩ := o
  · exact .inl ⟨a, rfl, rfl⟩
  · obtain ⟨n, rfl, s, hs, -⟩ := of_schema hread
    exact .inr ⟨c, n, a, s, rfl, shaped_of_derives hread n List.mem_cons_self, hs, hs⟩

end Pseudonym

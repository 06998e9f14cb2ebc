/-
# Spans are faithful

Every schema that is read from a text is faithful to it: its spans cover its
parts in the text, each one inside the span around it and behind those before
it. Each part takes the span of a node, and the nodes of a tree are placed in
the text.

Key definitions: `Yields`, `Peg.Node.Around`.
-/
import Pseudonym.Proofs.Syntax.Extents

namespace Pseudonym

open Peg

/-! ### Nodes -/

/-- Whatever a computation gives has this property. -/
def Yields {α ε : Type} (P : α → Prop) (x : Except ε α) : Prop := ∀ a, x = .ok a → P a

namespace Yields

variable {α β ε : Type} {P : α → Prop} {Q : β → Prop} {x : Except ε α}

theorem ok {a : α} (h : P a) : Yields P (.ok a : Except ε α) := by
  rintro _ ⟨⟩
  exact h

theorem error (e : ε) : Yields P (.error e) := nofun

theorem bind {k : α → Except ε β} (h : Yields P x) (hk : ∀ a, P a → Yields Q (k a)) :
    Yields Q (x >>= k) := by
  cases x with
  | error e => exact error e
  | ok a => exact hk a (h a rfl)

end Yields

section Rows

/-- The parts stand in a row inside the span of the node. -/
abbrev Peg.Node.Around (text : String) (n : Tree) (es : List Extent) : Prop :=
  Extent.Row text n.span.start n.span.stop es

variable {text : String} {lo hi : Nat} {n : Tree} {ns : List Tree}

/-- A part that takes the span of its node. -/
theorem Peg.Node.Placed.row_single (h : n.Placed text) {label : Label} {inside : List Extent}
    (hlabel : label.Fits n.string) (hinside : n.Around text inside) :
    n.Around text [⟨n.span, label, inside⟩] :=
  ⟨Nat.le_refl _, ⟨⟨_, h.covers, hlabel⟩, hinside⟩, Nat.le_refl _⟩

theorem Peg.Node.Placed.row_nil (h : n.Placed text) :
    n.Around text [] := h.row.le

theorem Peg.Node.Placed.row_ident (h : n.Placed text) :
    n.Around text [n.ident.extent] := h.row_single rfl h.row_nil

theorem Peg.Node.Placed.row_comment (h : n.Placed text) (hn : n.isComment = true) :
    n.Around text [n.comment.extent] := by
  have hmarked := h.marked
  refine h.row_single ⟨.ofList (Node.firstText n.children), ?_, ?_⟩ h.row_nil
  · rw [← String.toList_inj, Node.string, String.toList_ofList, String.toList_append,
      String.toList_ofList, Node.comment]
    rcases isComment_cases hn with hrule | hrule
    · rw [if_pos hrule]
      simp only [Node.Marked, hrule] at hmarked
      exact hmarked
    · rw [if_neg (by rw [hrule]; decide)]
      simp only [Node.Marked, hrule] at hmarked
      exact hmarked
  · rw [String.toList_ofList]
    rfl

/-- What one node gives, before what the nodes behind it give. -/
theorem Extent.Row.cons_node {es es' : List Extent} (hlo : lo ≤ n.span.start)
    (h : n.Around text es) (h' : Extent.Row text n.span.stop hi es') :
    Extent.Row text lo hi (es ++ es') :=
  (h.widen hlo (Nat.le_refl _)).append h'

/-- What nodes in a row give is in a row. -/
theorem yields_row_mapM {α : Type} {ofNode : Tree → Except SyntaxError α}
    {extents : α → List Extent} (hrow : Node.InRow lo hi ns)
    (h : ∀ n ∈ ns, Yields (fun a => n.Around text (extents a))
      (ofNode n)) :
    Yields (fun xs => Extent.Row text lo hi (xs.flatMap extents)) (ns.mapM ofNode) := by
  induction ns generalizing lo with
  | nil => exact .ok hrow
  | cons n ns ih =>
    obtain ⟨hlo, -, hrest⟩ := hrow
    rw [List.mapM_cons]
    refine (h n List.mem_cons_self).bind fun a ha => ?_
    refine (ih hrest fun n' hn' => h n' (List.mem_cons_of_mem n hn')).bind fun as has => .ok ?_
    exact .cons_node hlo ha has

theorem flatMap_filterMap_id {α : Type} (extents : α → List Extent) : ∀ xs : List (Option α),
    (xs.filterMap id).flatMap extents = xs.flatMap fun o => o.toList.flatMap extents
  | [] => rfl
  | none :: xs => flatMap_filterMap_id extents xs
  | some a :: xs => by
    rw [List.flatMap_cons, ← flatMap_filterMap_id extents xs]
    simp

theorem yields_row_members {α : Type} {ofNode? : Tree → Except SyntaxError (Option α)}
    {extents : α → List Extent} (hrow : Node.InRow lo hi ns)
    (h : ∀ n ∈ ns, Yields (fun a => n.Around text (a.toList.flatMap extents)) (ofNode? n)) :
    Yields (fun xs => Extent.Row text lo hi ((xs.filterMap id).flatMap extents))
      (ns.mapM ofNode?) := by
  intro xs hxs
  rw [flatMap_filterMap_id]
  exact yields_row_mapM hrow h xs hxs

end Rows

/-! ### Values and attributes -/

section Parts

variable {text : String} {lo hi : Nat} {n : Tree} {ns : List Tree}

theorem Value.extents_ofNumeral (digits : List Char) : (Value.ofNumeral digits).extents = [] := by
  rw [Value.ofNumeral]
  cases (wholeNumber? digits).bind int64? <;> rw [Value.extents]

mutual

/-- The arguments in a value stand in a row where the value stands. -/
theorem Value.row_ofNode : ∀ n : Tree, n.All (Node.Placed text) →
    Yields (fun v => n.Around text v.extents) (Value.ofNode n)
  | ⟨r, span, w, children⟩, h => by
    obtain ⟨hn, hchildren⟩ := h
    have hnone := hn.row_nil
    cases r with
    | stringLiteral | boolean | path =>
      rw [Value.ofNode]
      exact .ok (by rw [Value.extents]; exact hnone)
    | number =>
      rw [Value.ofNode]
      exact .ok (by rw [Value.extents_ofNumeral]; exact hnone)
    | functionCall =>
      match children, hchildren, hn.row with
      | [], _, _ =>
        rw [Value.ofNode]
        exact .error _
      | [name], _, _ =>
        rw [Value.ofNode]
        exact .ok (by rw [Value.extents, Argument.extentsEach]; exact hnone)
      | name :: args :: rest, hchildren, hrow =>
        obtain ⟨hstart, hname, hargs, -, hrest⟩ := hrow
        rw [Value.ofNode]
        refine (Argument.row_listOfNode args hchildren.2.1).bind fun as has => .ok ?_
        rw [Value.extents]
        exact has.widen (Nat.le_trans (Nat.le_trans hstart hname) hargs) hrest.le
    | array =>
      rw [Value.ofNode]
      refine (Value.row_listOfNodes children _ _ hchildren hn.row).bind fun vs hvs => .ok ?_
      rw [Value.extents]
      exact hvs
    | _ =>
      intro v hv
      simp [Value.ofNode] at hv

@[inherit_doc Value.row_ofNode]
theorem Value.row_listOfNodes : ∀ (ns : List Tree) (lo hi : Nat),
    Node.AllEach (Node.Placed text) ns → Node.InRow lo hi ns →
    Yields (fun vs => Extent.Row text lo hi (Value.extentsEach vs)) (Value.listOfNodes ns)
  | [], lo, hi, _, hrow => by
    rw [Value.listOfNodes]
    exact .ok (by rw [Value.extentsEach]; exact hrow)
  | n :: rest, lo, hi, h, hrow => by
    obtain ⟨hlo, -, hrest⟩ := hrow
    rw [Value.listOfNodes]
    refine (Value.row_ofNode n h.1).bind fun v hv => ?_
    refine (Value.row_listOfNodes rest _ hi h.2 hrest).bind fun vs hvs => .ok ?_
    rw [Value.extentsEach]
    exact .cons_node hlo hv hvs

/-- An argument stands where its node does. -/
theorem Argument.row_ofNode : ∀ n : Tree, n.All (Node.Placed text) →
    Yields (fun a => n.Around text [a.extent]) (Argument.ofNode n)
  | ⟨r, span, w, []⟩, _ => by
    rw [Argument.ofNode]
    exact .error _
  | ⟨r, span, w, ⟨r', span', w', parts⟩ :: rest⟩, h => by
    obtain ⟨hn, hchild, -⟩ := h
    obtain ⟨hlo, -, hhi⟩ := hn.row
    by_cases hr' : r' = .namedArgument
    · subst hr'
      match parts, hchild, hlo, hhi with
      | [], _, _, _ =>
        rw [Argument.ofNode]
        exact .error _
      | [_], _, _, _ =>
        rw [Argument.ofNode]
        exact .error _
      | name :: value :: more, hchild, hlo, hhi =>
        obtain ⟨hparts, hname, hvalue, -⟩ := hchild
        obtain ⟨hstart, -, hmid, -, hstop⟩ := hparts.row
        rw [Argument.ofNode]
        refine (Value.row_ofNode value hvalue).bind fun v hv => .ok ?_
        obtain ⟨name_rule, name_span, name_text, name_parts⟩ := name
        have hinside := Extent.Row.cons_node (Nat.le_trans hlo hstart) hname.1.row_ident
          (hv.widen hmid (Nat.le_trans hstop.le hhi.le))
        rw [Argument.extent]
        exact hn.row_single trivial hinside
    · rw [Argument.ofNode]
      · refine (Value.row_ofNode ⟨r', span', w', parts⟩ hchild).bind fun v hv => .ok ?_
        rw [Argument.extent]
        exact hn.row_single trivial (hv.widen hlo hhi.le)
      · rintro _ _ _ ⟨⟩
        exact hr' rfl

@[inherit_doc Argument.row_ofNode]
theorem Argument.row_listOfNodes : ∀ (ns : List Tree) (lo hi : Nat),
    Node.AllEach (Node.Placed text) ns → Node.InRow lo hi ns →
    Yields (fun as => Extent.Row text lo hi (Argument.extentsEach as)) (Argument.listOfNodes ns)
  | [], lo, hi, _, hrow => by
    rw [Argument.listOfNodes]
    exact .ok (by rw [Argument.extentsEach]; exact hrow)
  | n :: rest, lo, hi, h, hrow => by
    obtain ⟨hlo, hspan, hrest⟩ := hrow
    rw [Argument.listOfNodes]
    split
    · refine (Argument.row_ofNode n h.1).bind fun a ha => ?_
      refine (Argument.row_listOfNodes rest _ hi h.2 hrest).bind fun as has => .ok ?_
      rw [Argument.extentsEach]
      exact Extent.Row.cons_node hlo ha has
    · exact Argument.row_listOfNodes rest lo hi h.2
        (hrest.widen (Nat.le_trans hlo hspan) (Nat.le_refl hi))

@[inherit_doc Argument.row_ofNode]
theorem Argument.row_listOfNode : ∀ n : Tree, n.All (Node.Placed text) →
    Yields (fun as => n.Around text (Argument.extentsEach as))
      (Argument.listOfNode n)
  | ⟨r, span, w, children⟩, h => by
    rw [Argument.listOfNode]
    exact Argument.row_listOfNodes children _ _ h.2 h.1.row

end

/-- An attribute stands where its node does, and starts with its sign and its name. -/
theorem Attribute.row_ofNode {sign : String} (h : n.All (Node.Placed text))
    (hrule : n.rule = .fieldAttribute ∧ sign = "@" ∨ n.rule = .blockAttribute ∧ sign = "@@") :
    Yields (fun a => n.Around text [a.extent sign])
      (Attribute.ofNode n) := by
  have hsign : sign.toList ++ Node.firstText n.children <+: n.text := by
    have hmarked := h.self.marked
    rcases hrule with ⟨hrule, rfl⟩ | ⟨hrule, rfl⟩
    · simpa only [Node.Marked, hrule] using hmarked
    · simpa only [Node.Marked, hrule] using hmarked
  have hfits : ∀ {name : Tree}, sign.toList ++ name.text <+: n.text →
      (Label.attribute sign name.ident.name).Fits n.string := by
    rintro name ⟨rest, hrest⟩
    refine ⟨.ofList rest, ?_⟩
    rw [← String.toList_inj, Node.string, ← hrest]
    simp [Node.ident, Node.string]
  have hn := h.self
  have hrow := hn.row
  have hchildren := h.children
  rw [Attribute.ofNode]
  generalize n.children = children at hrow hchildren hsign ⊢
  rcases children with _ | ⟨name, _ | ⟨args, rest⟩⟩
  · exact .error _
  · obtain ⟨hlo, -, hhi⟩ := hrow
    have hname := (hchildren name List.mem_cons_self).self.row_ident
    refine .ok (hn.row_single (hfits hsign) ?_)
    rw [Argument.extentsEach]
    exact hname.widen hlo hhi
  · obtain ⟨hlo, -, hmid, -, hhi⟩ := hrow
    have hname := (hchildren name List.mem_cons_self).self.row_ident
    have hargs := Argument.row_listOfNode args
      (hchildren args (List.mem_cons_of_mem _ List.mem_cons_self))
    refine hargs.bind fun as has => .ok (hn.row_single (hfits hsign) ?_)
    exact Extent.Row.cons_node hlo hname (has.widen hmid hhi.le)

/-! ### Fields -/

/-- Attributes, and a comment behind them, stand in a row. -/
theorem yields_row_tail (htail : Node.Tail ns) (hrow : Node.InRow lo hi ns)
    (h : ∀ n ∈ ns, n.All (Node.Placed text)) :
    Yields (fun as => Extent.Row text lo hi (tailExtents as (Node.lastComment? ns)))
      (Attribute.listOfNodes ns) := by
  obtain ⟨attributes, comments, rfl, hattributes, hcomments⟩ := htail
  have hnone : ∀ {n : Tree}, n.isComment = true → n.rule ≠ .fieldAttribute := by
    intro n hn hrule
    simp [Node.isComment, hrule] at hn
  have hleft : (attributes ++ comments).filter (·.rule = .fieldAttribute) = attributes := by
    rw [List.filter_append, List.filter_eq_self.mpr (by simpa using hattributes),
      List.filter_eq_nil_iff.mpr (fun n hn => by simpa using hnone (hcomments n hn)),
      List.append_nil]
  have hright : (attributes ++ comments).filter Node.isComment = comments := by
    rw [List.filter_append, List.filter_eq_nil_iff.mpr, List.filter_eq_self.mpr hcomments,
      List.nil_append]
    exact fun n hn hcomment => hnone hcomment (hattributes n hn)
  obtain ⟨mid, hrow₁, hrow₂⟩ := hrow.of_append
  rw [Attribute.listOfNodes, hleft, Node.lastComment?, hright]
  have hlast : Extent.Row text mid hi
      ((comments.getLast?.map Node.comment).toList.map Comment.extent) := by
    cases hlast : comments.getLast? with
    | none => exact hrow₂.le
    | some n =>
      have hmem := List.mem_of_getLast? hlast
      have hn := (h n (List.mem_append_right _ hmem)).self.row_comment (hcomments n hmem)
      exact hn.widen (hrow₂.mem hmem).1 (hrow₂.mem hmem).2
  have hrows : Yields (fun as => Extent.Row text lo mid (as.flatMap fun a => [a.extent "@"]))
      (attributes.mapM Attribute.ofNode) :=
    yields_row_mapM hrow₁ fun n hn =>
      Attribute.row_ofNode (h n (List.mem_append_left _ hn)) (.inl ⟨hattributes n hn, rfl⟩)
  intro as has
  rw [tailExtents, List.map_eq_flatMap]
  exact (hrows as has).append hlast

theorem FieldType.row_ofNode? {type : FieldType} (h : n.All (Node.Placed text))
    (htype : (n.children.filterMap FieldType.ofNode?).getLast? = some type) :
    n.Around text type.extents := by
  obtain ⟨n', hmem, hn'⟩ := List.mem_filterMap.mp (List.mem_of_getLast? htype)
  have hcases : type.extents = [] ∨ type.extents = [n'.ident.extent] := by
    unfold FieldType.ofNode? at hn'
    split at hn'
    · split at hn'
      · cases hn'
        exact .inl rfl
      · cases hn'
        exact .inr rfl
    · split at hn'
      · cases hn'
        exact .inl rfl
      · cases hn'
        exact .inl rfl
    · cases hn'
  rcases hcases with hextents | hextents
  · rw [hextents]
    exact h.self.row_nil
  · rw [hextents]
    have hinside := h.self.row.mem hmem
    exact (h.children n' hmem).self.row_ident.widen hinside.1 hinside.2

/-- A field stands where its node does. -/
theorem Field.row_ofNode (h : n.All (Node.Placed text)) (hrule : n.rule = .fieldDef) :
    Yields (fun f => n.Around text [f.extent]) (Field.ofNode n) := by
  have hn := h.self
  have hrow := hn.row
  have hchildren := h.children
  have htail := hn.fieldTail hrule
  rw [Field.ofNode]
  generalize n.children = children at hrow hchildren htail ⊢
  rcases children with _ | ⟨name, _ | ⟨type, rest⟩⟩
  · exact .error _
  · exact .error _
  · obtain ⟨hlo, -, hmid, -, hrest⟩ := hrow
    have hname := (hchildren name List.mem_cons_self).self.row_ident
    have htype := hchildren type (List.mem_cons_of_mem _ List.mem_cons_self)
    dsimp only
    split
    · exact .error _
    next fieldType hfieldType =>
      refine (yields_row_tail htail hrest fun n hn =>
        hchildren n (List.mem_cons_of_mem _ (List.mem_cons_of_mem _ hn))).bind fun as has => .ok ?_
      refine hn.row_single trivial (Extent.Row.cons_node hlo hname ?_)
      exact .cons_node hmid (FieldType.row_ofNode? htype hfieldType) has

/-! ### Blocks -/

theorem row_headComment (hrow : Node.InRow lo hi ns) (h : ∀ n ∈ ns, n.All (Node.Placed text))
    (hcomment : ∀ r ∈ (ns.map (·.rule))[0]?, r = .docComment ∨ r = .lineComment) :
    Extent.Row text lo hi ((ns.head?.map Node.comment).toList.map Comment.extent) := by
  cases ns with
  | nil => exact hrow
  | cons n ns =>
    have hn : n.isComment = true := by
      rcases hcomment n.rule rfl with hrule | hrule <;> simp [Node.isComment, hrule]
    exact ((h n List.mem_cons_self).self.row_comment hn).widen hrow.1 hrow.2.2.le

/-- An attribute of a block stands where its node does, with the comment behind it. -/
theorem BlockAttribute.row_ofNode (h : n.All (Node.Placed text))
    (hrule : n.rule = .blockAttributeDef) :
    Yields (fun a => n.Around text a.extents)
      (BlockAttribute.ofNode n) := by
  have hleads := h.self.leads
  have hrow := h.self.row
  have hchildren := h.children
  rw [hrule] at hleads
  rw [BlockAttribute.ofNode]
  generalize n.children = children at hrow hchildren hleads ⊢
  cases children with
  | nil => exact .error _
  | cons attr rest =>
    obtain ⟨hlo, -, hrest⟩ := hrow
    obtain ⟨hattr, hcomment⟩ := hleads
    have hattr : Yields (fun a => attr.Around text [a.extent "@@"])
        (Attribute.ofNode attr) :=
      Attribute.row_ofNode (hchildren attr List.mem_cons_self) (.inr ⟨rule_eq_of_leads hattr, rfl⟩)
    have hcomment := row_headComment hrest
      (fun n hn => hchildren n (List.mem_cons_of_mem _ hn)) hcomment
    exact hattr.bind fun a ha => .ok (Extent.Row.cons_node hlo ha hcomment)

/-- A value of an enum stands where its node does. -/
theorem EnumValue.row_ofNode (h : n.All (Node.Placed text)) (hrule : n.rule = .enumValue) :
    Yields (fun v => n.Around text [v.extent])
      (EnumValue.ofNode n) := by
  have hn := h.self
  have hrow := hn.row
  have hchildren := h.children
  have htail := hn.valueTail hrule
  rw [EnumValue.ofNode]
  generalize n.children = children at hrow hchildren htail ⊢
  cases children with
  | nil => exact .error _
  | cons name rest =>
    obtain ⟨hlo, -, hrest⟩ := hrow
    have hname := (hchildren name List.mem_cons_self).self.row_ident
    refine (yields_row_tail htail hrest fun n hn =>
      hchildren n (List.mem_cons_of_mem _ hn)).bind fun as has => .ok ?_
    exact hn.row_single trivial (Extent.Row.cons_node hlo hname has)

/-- A property stands where its node does. -/
theorem Property.row_ofNode (h : n.All (Node.Placed text)) (hrule : n.rule = .configProperty) :
    Yields (fun p => n.Around text [p.extent]) (Property.ofNode n) := by
  have hn := h.self
  have hleads := hn.leads
  have hrow := hn.row
  have hchildren := h.children
  rw [hrule] at hleads
  rw [Property.ofNode]
  generalize n.children = children at hrow hchildren hleads ⊢
  rcases children with _ | ⟨name, _ | ⟨value, rest⟩⟩
  · exact .error _
  · exact .error _
  · obtain ⟨hlo, -, hmid, -, hrest⟩ := hrow
    obtain ⟨-, hcomment⟩ := hleads
    have hname := (hchildren name List.mem_cons_self).self.row_ident
    have hvalue := Value.row_ofNode value
      (hchildren value (List.mem_cons_of_mem _ List.mem_cons_self))
    have hcomment := row_headComment hrest
      (fun n hn => hchildren n (List.mem_cons_of_mem _ (List.mem_cons_of_mem _ hn))) hcomment
    refine hvalue.bind fun v hv => .ok (hn.row_single trivial ?_)
    exact Extent.Row.cons_node hlo hname (.cons_node hmid hv hcomment)

theorem Extent.row_some {α : Type} {extents : α → List Extent} {a : α}
    (h : Extent.Row text lo hi (extents a)) :
    Extent.Row text lo hi ((some a).toList.flatMap extents) := by
  rw [Option.toList_some, List.flatMap_singleton]
  exact h

/-- A member of a block stands where its node does, if what its rule stands for does. -/
theorem row_member? {α : Type} {comment : Comment → α}
    {kinds : List (Rule × (Tree → Except SyntaxError α))} {extents : α → List Extent}
    (h : n.All (Node.Placed text))
    (hkinds : ∀ kind ∈ kinds, n.rule = kind.1 →
      Yields (fun a => n.Around text (extents a)) (kind.2 n))
    (hcomment : ∀ c, extents (comment c) = [c.extent]) :
    Yields (fun m => n.Around text (m.toList.flatMap extents)) (n.member? comment kinds) := by
  rw [Node.member?]
  split
  next hrule =>
    refine .ok (Extent.row_some ?_)
    rw [hcomment]
    exact h.self.row_comment hrule
  next =>
    cases hfind : kinds.find? (·.1 = n.rule) with
    | none => exact .ok h.self.row_nil
    | some kind =>
      have hrule : kind.1 = n.rule := by simpa using List.find?_some hfind
      exact (hkinds kind (List.mem_of_find?_eq_some hfind) hrule.symm).bind fun a ha =>
        .ok (Extent.row_some ha)

theorem ModelMember.row_ofNode? (h : n.All (Node.Placed text)) :
    Yields (fun m => n.Around text (m.toList.flatMap ModelMember.extents))
      (ModelMember.ofNode? n) := by
  refine row_member? h (List.forall_mem_cons.mpr ⟨fun hrule => ?_,
    List.forall_mem_singleton.mpr fun hrule => ?_⟩) fun _ => rfl
  · exact (Field.row_ofNode h hrule).bind fun f hf => .ok hf
  · exact (BlockAttribute.row_ofNode h hrule).bind fun a ha => .ok ha

theorem EnumMember.row_ofNode? (h : n.All (Node.Placed text)) :
    Yields (fun m => n.Around text (m.toList.flatMap EnumMember.extents))
      (EnumMember.ofNode? n) := by
  refine row_member? h (List.forall_mem_cons.mpr ⟨fun hrule => ?_,
    List.forall_mem_singleton.mpr fun hrule => ?_⟩) fun _ => rfl
  · exact (EnumValue.row_ofNode h hrule).bind fun v hv => .ok hv
  · exact (BlockAttribute.row_ofNode h hrule).bind fun a ha => .ok ha

theorem ConfigMember.row_ofNode? (h : n.All (Node.Placed text)) :
    Yields (fun m => n.Around text (m.toList.flatMap ConfigMember.extents))
      (ConfigMember.ofNode? n) :=
  row_member? h (List.forall_mem_singleton.mpr fun hrule =>
    (Property.row_ofNode h hrule).bind fun _ hp => .ok hp) fun _ => rfl

/-- The name of a block and its members stand in a row behind the keyword. -/
theorem yields_row_block {α : Type} {ofNode? : Tree → Except SyntaxError (Option α)}
    {extents : α → List Extent} (word : String) (h : n.All (Node.Placed text))
    (hmember : ∀ {n : Tree}, n.All (Node.Placed text) → Yields (fun a =>
      n.Around text (a.toList.flatMap extents)) (ofNode? n)) :
    Yields (fun b => n.Around text (b.1.extent :: b.2.flatMap extents)) (n.block word ofNode?) := by
  have hrow := h.self.row
  have hchildren := h.children
  rw [Node.block]
  generalize n.children = children at hrow hchildren ⊢
  rcases children with _ | ⟨keyword, _ | ⟨name, rest⟩⟩
  · exact .error _
  · exact .error _
  · obtain ⟨hlo, hkeyword, hmid, -, hrest⟩ := hrow
    have hname := (hchildren name (List.mem_cons_of_mem _ List.mem_cons_self)).self.row_ident
    have hmembers := yields_row_members hrest fun n hn =>
      hmember (hchildren n (List.mem_cons_of_mem _ (List.mem_cons_of_mem _ hn)))
    refine hmembers.bind fun xs hxs => .ok ?_
    exact Extent.Row.cons_node (Nat.le_trans (Nat.le_trans hlo hkeyword) hmid) hname hxs

/-- A model stands where its node does. -/
theorem Model.row_ofNode (h : n.All (Node.Placed text)) :
    Yields (fun m => n.Around text [m.extent]) (Model.ofNode n) :=
  (yields_row_block "model" h ModelMember.row_ofNode?).bind fun _ hb =>
    .ok (h.self.row_single trivial hb)

/-- An enum stands where its node does. -/
theorem Enum.row_ofNode (h : n.All (Node.Placed text)) :
    Yields (fun e => n.Around text [e.extent]) (Enum.ofNode n) :=
  (yields_row_block "enum" h EnumMember.row_ofNode?).bind fun _ hb =>
    .ok (h.self.row_single trivial hb)

/-- A block of configuration stands where its node does. -/
theorem ConfigBlock.row_ofNode (h : n.All (Node.Placed text)) :
    Yields (fun b => n.Around text [b.extent]) (ConfigBlock.ofNode n) := by
  have hblock := yields_row_block "block" h ConfigMember.row_ofNode?
  rw [ConfigBlock.ofNode]
  split
  · exact .error _
  · split
    · exact .error _
    · exact hblock.bind fun _ hb => .ok (h.self.row_single trivial hb)

/-! ### Schemas -/

theorem row_comments (hrow : Node.InRow lo hi ns) (h : ∀ n ∈ ns, n.All (Node.Placed text))
    (hcomments : ∀ n ∈ ns, n.isComment = true) :
    Extent.Row text lo hi ((ns.map Node.comment).map Comment.extent) := by
  induction ns generalizing lo with
  | nil => exact hrow
  | cons n ns ih =>
    obtain ⟨hlo, -, hrest⟩ := hrow
    have hn := (h n List.mem_cons_self).self.row_comment (hcomments n List.mem_cons_self)
    exact Extent.Row.cons_node hlo hn (ih hrest (fun n' hn' => h n' (List.mem_cons_of_mem n hn'))
      fun n' hn' => hcomments n' (List.mem_cons_of_mem n hn'))

/-- A declaration stands where its node does. -/
theorem Declaration.row_ofNode? (h : n.All (Node.Placed text)) :
    Yields (fun d => n.Around text (d.toList.flatMap fun d => [d.extent]))
      (Declaration.ofNode? n) := by
  unfold Declaration.ofNode?
  split
  next hrule =>
    have hleads := h.self.leads
    rw [hrule] at hleads
    have hcomments : ∀ n' ∈ n.children, n'.isComment = true := by
      intro n' hn'
      rcases hleads n'.rule (List.mem_map_of_mem hn') with hrule | hrule <;>
        simp [Node.isComment, hrule]
    refine .ok (Extent.row_some (h.self.row_single trivial ?_))
    exact row_comments h.self.row h.children hcomments
  next => exact (ConfigBlock.row_ofNode h).bind fun b hb => .ok (Extent.row_some hb)
  next => exact (Model.row_ofNode h).bind fun m hm => .ok (Extent.row_some hm)
  next => exact (Enum.row_ofNode h).bind fun e he => .ok (Extent.row_some he)
  next => exact .ok h.self.row_nil

/-- The declarations of a schema stand in a row. -/
theorem Schema.row_ofNode (h : n.All (Node.Placed text)) :
    Yields (fun s => n.Around text s.extents) (Schema.ofNode n) := by
  rw [Schema.ofNode]
  refine (yields_row_members h.self.row fun n' hn' =>
    Declaration.row_ofNode? (h.children n' hn')).bind fun xs hxs => .ok ?_
  rw [Schema.extents, List.map_eq_flatMap]
  exact hxs

end Parts

/-- The declarations of a schema that is read stand in a row in the text. -/
theorem Schema.row_of_parse {text : String} {s : Schema} (h : Schema.parse text = .ok s) :
    Extent.Row text 0 text.utf8ByteSize s.extents := by
  rcases Schema.parse_cases text with ⟨a, -, herror⟩ | ⟨c, n, a, s', hrun, -, hs', hok⟩
  · rw [herror] at h
    cases h
  · obtain rfl : s' = s := Except.ok.inj (hok.symm.trans h)
    have hread := survey.toLayering.run_derives (l := .consuming) (a := .none) (m := .spaced)
      (c := .ofText text.toList) (t := .expr (.call .schema)) rfl
    rw [hrun] at hread
    have hplaced := placed_of_derives (.refl _) hread n List.mem_cons_self
    have hinside := Schema.row_ofNode hplaced s' hs'
    exact hinside.widen (Nat.zero_le _) hplaced.self.covers.stop_le

/-- **Spans are faithful.** The spans of a schema that is read cover its parts in the text, each
inside the span around it and behind those before it. So no span ends before it starts, and none
ends behind the text. There are no other spans: a change that leaves these as they are leaves the
schema as it is. -/
theorem Schema.row_extents_of_parse {text : String} {s : Schema} (h : Schema.parse text = .ok s) :
    Extent.Row text 0 text.utf8ByteSize s.extents ∧
    (∀ x ∈ s.spans, x.start + x.len = x.stop ∧ x.stop ≤ text.utf8ByteSize) ∧
    ∀ f, (∀ x ∈ s.spans, f x = x) → s.retouch (.mapSpan f) = s := by
  have hrow := Schema.row_of_parse h
  refine ⟨hrow, fun x hx => ?_, fun f => s.retouch_of_fixed⟩
  obtain ⟨w, hw⟩ := Extent.Row.covers_of_mem _ _ _ hrow x hx
  have hle := hw.start_le_stop
  refine ⟨?_, hw.stop_le⟩
  rw [Span.len]
  omega

/-- A text with every part that has a span, some of them behind characters of several bytes. -/
def spannedLines : String :=
  "// Schlüssel\ngenerator g \x7b\n  out = env(\"Ö\") // hier\n\x7d\nmodel A \x7b /// größer \n" ++
  "  b B[] @rel(map: f(1, [x, y]), [b]) @id // b\n  @@index([b]) // i\n\x7d\n" ++
  "enum B \x7b\n  c @map(\"ß\") // c\n  @@map(\"d\")\n\x7d\n"

theorem Schema.row_extents_of_parse_spannedLines :
    ∃ s, Schema.parse spannedLines = .ok s ∧ s.spans.length = 39 ∧
      Extent.Row spannedLines 0 spannedLines.utf8ByteSize s.extents ∧
      ∀ x ∈ s.spans, x.start + x.len = x.stop ∧ x.stop ≤ spannedLines.utf8ByteSize := by
  have hcount : (Schema.parse spannedLines).toOption.any (·.spans.length == 39) = true := by
    decide +kernel
  cases hs : Schema.parse spannedLines with
  | error e =>
    rw [hs] at hcount
    cases hcount
  | ok s =>
    rw [hs] at hcount
    obtain ⟨hrow, hspans, -⟩ := Schema.row_extents_of_parse hs
    exact ⟨s, rfl, beq_iff_eq.mp hcount, hrow, hspans⟩

end Pseudonym

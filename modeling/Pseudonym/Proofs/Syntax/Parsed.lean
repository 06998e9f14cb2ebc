/-
# Schemas that are read

Whatever the grammar reads is a schema, and a well-spelled one: no node of its
tree lacks a part, and the words of the tree are words of the grammar. Each
rule is opened once, and its nodes are what the rules it calls leave.
-/
import Pseudonym.Proofs.Syntax.Declarations
import Pseudonym.Proofs.Syntax.ParsedValues

namespace Pseudonym

open Peg

variable {m : Mode} {c c' : Cursor} {ns : List Tree}

/-! ### Lists of nodes -/

/-- What every node of every round has, the nodes of a repetition have. -/
theorem of_rounds {e : Expr Rule} {Q : Tree → Prop}
    (h : Parses m (.many e) c c' ns)
    (hround : ∀ c c' ns, Parses m e c c' ns → ∀ n ∈ ns, Q n) :
    ∀ n ∈ ns, Q n := by
  refine h.of_many (fun _ ns => ∀ n ∈ ns, Q n) nofun ?_
  intro c₁ ns₁ c₀ c₂ ns₂ hns₁ _ hlast n hn
  rcases List.mem_append.mp hn with hn | hn
  · exact hns₁ n hn
  · exact hround c₀ c₂ ns₂ hlast n hn

theorem mem_of_single {Q : Tree → Prop} (h : Single Q ns) : ∀ n ∈ ns, Q n := by
  obtain ⟨n', rfl, hn'⟩ := h
  intro n hn
  obtain rfl := List.mem_singleton.mp hn
  exact hn'

theorem mapM_gives {α : Type} {ofNode : Tree → Except SyntaxError α} {P : α → Prop} :
    ∀ {ns : List Tree}, (∀ n ∈ ns, Gives ofNode P n) →
    ∃ xs, ns.mapM ofNode = .ok xs ∧ ∀ x ∈ xs, P x
  | [], _ => ⟨[], rfl, nofun⟩
  | n :: ns, h => by
    obtain ⟨x, hx, hPx⟩ := h n List.mem_cons_self
    obtain ⟨xs, hxs, hPxs⟩ := mapM_gives fun n' hn' => h n' (List.mem_cons_of_mem n hn')
    refine ⟨x :: xs, ?_, ?_⟩
    · rw [List.mapM_cons, hx, hxs]
      rfl
    · intro y hy
      rcases List.mem_cons.mp hy with rfl | hy
      · exact hPx
      · exact hPxs y hy

/-- Names that are read are names. -/
theorem of_name (h : Parses m (.call .identifier) c c' ns)
    (hm : m ≠ .atomic) :
    Single (fun n => n.rule = .identifier ∧ isName n.ident.name.toList = true) ns := by
  obtain ⟨w, hw, -, n, rfl, hspells⟩ := of_identifier h hm
  refine ⟨n, rfl, hspells.rule, ?_⟩
  rw [Peg.Node.ident, Peg.Node.string, hspells.text, String.toList_ofList]
  exact hw

/-! ### Attributes and ends of lines -/

/-- Attributes that are read are well spelled, those of fields and those of blocks. -/
theorem of_attribute (r : Rule) {sign : String} (hkind : grammar.kind r = .compact)
    (hbody : grammar.body r =
      Grammar.all (Grammar.lit sign) [.call .path, .opt (.call .arguments)])
    (h : Parses .spaced (.call r) c c' ns) :
    Single (fun n => n.rule = r ∧ Gives Attribute.ofNode Attribute.WellSpelled n) ns := by
  obtain ⟨children, hparts, rfl⟩ := h.of_call_node (by rw [hkind]; nofun)
  rw [hkind, hbody] at hparts
  obtain ⟨c₁, _, _, hsign, hrest, rfl⟩ := hparts.of_seq
  obtain ⟨c₂, _, _, hname, hargs, rfl⟩ := hrest.of_seq
  obtain ⟨-, rfl⟩ := hsign.of_word
  obtain ⟨-, w, hw, -, name, rfl, hspells⟩ := of_path hname nofun
  have hpath : IsPath name.ident.name.toList := by
    rw [Peg.Node.ident, Peg.Node.string, hspells.text, String.toList_ofList]
    exact hw
  refine ⟨_, rfl, rfl, ?_⟩
  rcases hargs.of_opt with hargs | ⟨-, rfl⟩
  · obtain ⟨list, rfl, args, hlist, hspelled⟩ := of_arguments (valuesBelow _) (Nat.le_refl _) hargs
    refine ⟨⟨name.ident, args, .between c.place c'.place⟩, ?_, hpath, hspelled⟩
    rw [Attribute.ofNode]
    show (do let args ← Argument.listOfNode list; _) = _
    rw [hlist]
    rfl
  · refine ⟨⟨name.ident, [], .between c.place c'.place⟩, rfl, hpath, ?_⟩
    rw [Argument.WellSpelledEach]
    trivial

theorem of_fieldAttribute
    (h : Parses .spaced (.call .fieldAttribute) c c' ns) :
    Single (fun n => n.rule = .fieldAttribute ∧ Gives Attribute.ofNode Attribute.WellSpelled n) ns :=
  of_attribute .fieldAttribute rfl rfl h

/-- The comment at the end of a line is well spelled. -/
theorem of_trailing (h : Parses m Grammar.trailingComment c c' ns) :
    ∀ n ∈ ns, n.isComment = true ∧ n.comment.WellSpelled := by
  rcases h.of_opt with hcomment | ⟨-, rfl⟩
  · exact mem_of_single (of_comment hcomment)
  · nofun

theorem wellSpelled_head (h : ∀ n ∈ ns, n.isComment = true ∧ n.comment.WellSpelled) :
    ∀ d ∈ ns.head?.map Peg.Node.comment, d.WellSpelled := by
  intro d hd
  obtain ⟨n, hn, rfl⟩ := Option.map_eq_some_iff.mp hd
  exact (h n (List.mem_of_head? hn)).2

/-- The nodes behind a field or a value of an enum: well-spelled attributes and comments. -/
def TailNode (n : Tree) : Prop :=
  n.rule = .fieldAttribute ∧ Gives Attribute.ofNode Attribute.WellSpelled n ∨
    n.isComment = true ∧ n.comment.WellSpelled

theorem of_tail
    (h : Parses .spaced (.seq (.many (.call .fieldAttribute)) Grammar.trailingComment) c c' ns) :
    ∀ n ∈ ns, TailNode n := by
  obtain ⟨c₁, before, after, hattributes, hcomment, rfl⟩ := h.of_seq
  intro n hn
  rcases List.mem_append.mp hn with hn | hn
  · exact .inl (of_rounds hattributes
      (fun _ _ _ hround => mem_of_single (of_fieldAttribute hround)) n hn)
  · exact .inr (of_trailing hcomment n hn)

theorem listOfNodes_attributes_wellSpelled (h : ∀ n ∈ ns, TailNode n) :
    ∃ as, Attribute.listOfNodes ns = .ok as ∧ ∀ a ∈ as, a.WellSpelled := by
  refine mapM_gives fun n hn => ?_
  obtain ⟨hmem, hrule⟩ := List.mem_filter.mp hn
  rcases h n hmem with ⟨-, hgives⟩ | ⟨hcomment, -⟩
  · exact hgives
  · exact absurd (of_decide_eq_true hrule) (rule_ne_of_isComment hcomment)

theorem lastComment?_wellSpelled (h : ∀ n ∈ ns, TailNode n) :
    ∀ d ∈ Peg.Node.lastComment? ns, d.WellSpelled := by
  intro d hd
  obtain ⟨n, hlast, rfl⟩ := Option.map_eq_some_iff.mp hd
  obtain ⟨hmem, hcomment⟩ := List.mem_filter.mp (List.mem_of_getLast? hlast)
  rcases h n hmem with ⟨hrule, -⟩ | ⟨-, hspelled⟩
  · exact absurd hrule (rule_ne_of_isComment hcomment)
  · exact hspelled

/-! ### Types -/

theorem of_type (h : Parses .compact (.alt (.call .unsupportedType) (.call .identifier)) c c' ns) :
    Single (fun n => ∃ type, FieldType.ofNode? n = some type ∧ type.WellSpelled) ns := by
  rcases h.of_alt with hunsupported | ⟨-, hname⟩
  · obtain ⟨children, hbody, rfl⟩ := hunsupported.of_call_node nofun
    obtain ⟨c₁, _, _, hword, hrest₁, rfl⟩ := hbody.of_seq
    obtain ⟨c₂, _, _, hopen, hrest₂, rfl⟩ := hrest₁.of_seq
    obtain ⟨c₃, _, _, hliteral, hclose, rfl⟩ := hrest₂.of_seq
    obtain ⟨-, rfl⟩ := hword.of_word
    obtain ⟨-, rfl⟩ := hopen.of_word
    obtain ⟨-, rfl⟩ := hclose.of_word
    obtain ⟨w, hw, literal, rfl, -, content, hcontent, -, htext⟩ := of_string hliteral
    refine ⟨_, rfl, .unsupported (.ofList w), ?_, ?_⟩
    · show some (FieldType.unsupported (.ofList (Peg.Node.firstText literal.children))) = _
      rw [hcontent, Peg.Node.firstText, htext]
    · rw [FieldType.WellSpelled, String.toList_ofList]
      exact hw
  · obtain ⟨n, rfl, hrule, hisName⟩ := of_name hname (by decide)
    refine ⟨n, rfl, ?_⟩
    simp only [FieldType.ofNode?, hrule]
    cases hscalar : ScalarType.ofWord? n.string with
    | some type => exact ⟨.scalar type, rfl, trivial⟩
    | none => exact ⟨.named n.ident, rfl, hisName, hscalar⟩

/-- Markers are no types. -/
theorem of_marker (r : Rule) (hr : r = .listMarker ∨ r = .optionalMarker)
    (h : Parses .compact (.opt (.call r)) c c' ns) :
    ns.filterMap FieldType.ofNode? = [] := by
  rcases h.of_opt with hmarker | ⟨-, rfl⟩
  · rcases hr with rfl | rfl
    · obtain ⟨children, -, rfl⟩ := hmarker.of_call_node nofun
      rfl
    · obtain ⟨children, -, rfl⟩ := hmarker.of_call_node nofun
      rfl
  · rfl

theorem of_fieldType (h : Parses .spaced (.call .fieldType) c c' ns) :
    Single (fun n => ∃ type, (n.children.filterMap FieldType.ofNode?).getLast? = some type ∧
      type.WellSpelled) ns := by
  obtain ⟨children, hbody, rfl⟩ := h.of_call_node nofun
  obtain ⟨c₁, _, _, htype, hrest, rfl⟩ := hbody.of_seq
  obtain ⟨c₂, _, _, hlist, hoptional, rfl⟩ := hrest.of_seq
  obtain ⟨n, rfl, type, hn, hspelled⟩ := of_type htype
  refine ⟨_, rfl, type, ?_, hspelled⟩
  rw [List.filterMap_append, List.filterMap_append, of_marker _ (.inl rfl) hlist,
    of_marker _ (.inr rfl) hoptional, List.filterMap_cons_some hn]
  rfl

/-! ### Members -/

theorem of_field (h : Parses .spaced (.call .fieldDef) c c' ns) :
    Single (fun n => n.rule = .fieldDef ∧ Gives Field.ofNode Field.WellSpelled n) ns := by
  obtain ⟨children, hbody, rfl⟩ := h.of_call_node nofun
  obtain ⟨c₁, _, _, hname, hrest, rfl⟩ := hbody.of_seq
  obtain ⟨c₂, _, rest, htype, htail, rfl⟩ := hrest.of_seq
  obtain ⟨name, rfl, -, hisName⟩ := of_name hname nofun
  obtain ⟨type, rfl, fieldType, hlast, htype⟩ := of_fieldType htype
  have htail := of_tail htail
  obtain ⟨as, has, hattributes⟩ := listOfNodes_attributes_wellSpelled htail
  refine ⟨_, rfl, rfl, ⟨name.ident, fieldType, .ofNodes type.children, as,
    Peg.Node.lastComment? rest, .between c.place c'.place⟩, ?_, ?_⟩
  · show Field.ofNode ⟨.fieldDef, _, _, name :: type :: rest⟩ = _
    simp only [Field.ofNode, hlast, has]
    rfl
  · exact ⟨hisName, htype, hattributes, lastComment?_wellSpelled htail⟩

theorem of_enumValue (h : Parses .spaced (.call .enumValue) c c' ns) :
    Single (fun n => n.rule = .enumValue ∧ Gives EnumValue.ofNode EnumValue.WellSpelled n) ns := by
  obtain ⟨children, hbody, rfl⟩ := h.of_call_node nofun
  obtain ⟨c₁, _, rest, hname, htail, rfl⟩ := hbody.of_seq
  obtain ⟨name, rfl, -, hisName⟩ := of_name hname nofun
  have htail := of_tail htail
  obtain ⟨as, has, hattributes⟩ := listOfNodes_attributes_wellSpelled htail
  refine ⟨_, rfl, rfl, ⟨name.ident, as, Peg.Node.lastComment? rest,
    .between c.place c'.place⟩, ?_, ?_⟩
  · show EnumValue.ofNode ⟨.enumValue, _, _, name :: rest⟩ = _
    simp only [EnumValue.ofNode, has]
    rfl
  · exact ⟨hisName, hattributes, lastComment?_wellSpelled htail⟩

theorem of_blockAttribute
    (h : Parses .spaced (.call .blockAttributeDef) c c' ns) :
    Single (fun n => n.rule = .blockAttributeDef ∧
      Gives BlockAttribute.ofNode BlockAttribute.WellSpelled n) ns := by
  obtain ⟨children, hbody, rfl⟩ := h.of_call_node nofun
  obtain ⟨c₁, _, rest, hattr, hcomment, rfl⟩ := hbody.of_seq
  obtain ⟨attr, rfl, -, a, ha, hspelled⟩ := of_attribute .blockAttribute rfl rfl hattr
  refine ⟨_, rfl, rfl, ⟨a, rest.head?.map Peg.Node.comment⟩, ?_, ?_⟩
  · show BlockAttribute.ofNode ⟨.blockAttributeDef, _, _, attr :: rest⟩ = _
    simp only [BlockAttribute.ofNode, ha]
    rfl
  · exact ⟨hspelled, wellSpelled_head (of_trailing hcomment)⟩

theorem of_property (h : Parses .spaced (.call .configProperty) c c' ns) :
    Single (fun n => n.rule = .configProperty ∧ Gives Property.ofNode Property.WellSpelled n) ns := by
  obtain ⟨children, hbody, rfl⟩ := h.of_call_node nofun
  obtain ⟨c₁, _, _, hname, hrest₁, rfl⟩ := hbody.of_seq
  obtain ⟨c₂, _, _, hequals, hrest₂, rfl⟩ := hrest₁.of_seq
  obtain ⟨c₃, _, rest, hvalue, hcomment, rfl⟩ := hrest₂.of_seq
  obtain ⟨name, rfl, -, hisName⟩ := of_name hname nofun
  obtain ⟨-, rfl⟩ := hequals.of_word
  obtain ⟨value, rfl, v, hv, hspelled⟩ := of_value hvalue
  refine ⟨_, rfl, rfl, ⟨name.ident, v, rest.head?.map Peg.Node.comment,
    .between c.place c'.place⟩, ?_, ?_⟩
  · show Property.ofNode ⟨.configProperty, _, _, name :: value :: rest⟩ = _
    simp only [Property.ofNode, hv]
    rfl
  · exact ⟨hisName, hspelled, wellSpelled_head (of_trailing hcomment)⟩

section Kinds

variable {α β : Type} {comment : Comment → α} {kinds : List (Rule × (Tree → Except SyntaxError α))}
  {P : α → Prop} {n : Tree}

/-- A node gives the member that its rule stands for. -/
theorem gives_member {r : Rule} {ofNode : Tree → Except SyntaxError β} {make : β → α}
    {Q : β → Prop} (h : n.rule = r ∧ Gives ofNode Q n)
    (hr : (r == .docComment || r == .lineComment) = false)
    (hkind : kinds.find? (·.1 = r) = some (r, fun n => do .ok (make (← ofNode n))))
    (hmake : ∀ b, Q b → P (make b)) :
    Gives (Peg.Node.member? comment kinds) (∀ x ∈ ·, P x) n := by
  obtain ⟨hrule, b, hb, hQ⟩ := h
  refine ⟨some (make b), ?_, by rintro _ ⟨⟩; exact hmake b hQ⟩
  rw [Peg.Node.member?_of_rule hrule hr hkind, hb]
  rfl

theorem gives_comment (h : n.isComment = true ∧ n.comment.WellSpelled)
    (hmake : ∀ d : Comment, d.WellSpelled → P (comment d)) :
    Gives (Peg.Node.member? comment kinds) (∀ x ∈ ·, P x) n :=
  ⟨_, Peg.Node.member?_of_isComment h.1, by rintro _ ⟨⟩; exact hmake _ h.2⟩

/-- Of a member of a model or of an enum each alternative leaves one node. -/
theorem of_ownMember {own : Rule} {G : Tree → Prop}
    (h : Parses .spaced (ownMember own) c c' ns)
    (hattr : ∀ n, n.rule = .blockAttributeDef ∧
      Gives BlockAttribute.ofNode BlockAttribute.WellSpelled n → G n)
    (hown : ∀ {ns}, Parses .spaced (.call own) c c' ns → Single G ns)
    (hcomment : ∀ n : Tree, n.isComment = true ∧ n.comment.WellSpelled → G n) : Single G ns := by
  rcases h.of_alt with h | ⟨-, h⟩
  · exact (of_blockAttribute h).mono hattr
  rcases h.of_alt with h | ⟨-, h⟩
  · exact hown h
  · exact (of_comment h).mono hcomment

end Kinds

theorem of_modelMember (h : Parses .spaced modelMember c c' ns) :
    Single (Gives ModelMember.ofNode? (∀ x ∈ ·, ModelMember.WellSpelled x)) ns :=
  of_ownMember h (fun _ hn => gives_member hn rfl rfl fun _ => id)
    (fun h => (of_field h).mono fun _ hn => gives_member hn rfl rfl fun _ => id)
    fun _ hn => gives_comment hn fun _ => id

theorem of_enumMember (h : Parses .spaced enumMember c c' ns) :
    Single (Gives EnumMember.ofNode? (∀ x ∈ ·, EnumMember.WellSpelled x)) ns :=
  of_ownMember h (fun _ hn => gives_member hn rfl rfl fun _ => id)
    (fun h => (of_enumValue h).mono fun _ hn => gives_member hn rfl rfl fun _ => id)
    fun _ hn => gives_comment hn fun _ => id

theorem of_configMember (h : Parses .spaced configMember c c' ns) :
    Single (Gives ConfigMember.ofNode? (∀ x ∈ ·, ConfigMember.WellSpelled x)) ns := by
  rcases h.of_alt with hproperty | ⟨-, hcomment⟩
  · exact (of_property hproperty).mono fun _ hn => gives_member hn rfl rfl fun _ => id
  · exact (of_comment hcomment).mono fun _ hn => gives_comment hn fun _ => id

/-! ### Blocks -/

/-- The nodes of a block that is read: its keyword, its name and its members. -/
theorem nodes_of_block {keyword member : Expr Rule} {K Q : Tree → Prop} (hm : m ≠ .atomic)
    (h : Parses m (Grammar.block keyword member) c c' ns)
    (hkeyword : ∀ c c' ns, Parses m keyword c c' ns → Single K ns)
    (hmember : ∀ c c' ns, Parses m member c c' ns → Single Q ns) :
    ∃ head name rest, ns = head :: name :: rest ∧ K head ∧
      (name.rule = .identifier ∧ isName name.ident.name.toList = true) ∧ ∀ n ∈ rest, Q n := by
  obtain ⟨c₁, _, _, hhead, hrest₁, rfl⟩ := h.of_seq
  obtain ⟨c₂, _, _, hname, hrest₂, rfl⟩ := hrest₁.of_seq
  obtain ⟨c₃, _, _, hopen, hrest₃, rfl⟩ := hrest₂.of_seq
  obtain ⟨c₄, members, _, hmembers, hclose, rfl⟩ := hrest₃.of_seq
  obtain ⟨head, rfl, hK⟩ := hkeyword _ _ _ hhead
  obtain ⟨name, rfl, hspelled⟩ := of_name hname hm
  obtain ⟨-, rfl⟩ := hopen.of_word
  obtain ⟨-, rfl⟩ := hclose.of_word
  refine ⟨head, name, members, by simp, hK, hspelled, ?_⟩
  refine of_rounds hmembers fun c₁ c₂ ns hround => ?_
  rcases hround.of_alt with hline | ⟨-, hround⟩
  · obtain rfl := of_newline hline
    nofun
  · exact mem_of_single (hmember _ _ _ hround)

/-- The node of a block that is read gives a name and well-spelled members. -/
theorem of_block {α : Type} {r : Rule} {keyword member : Expr Rule} {K : Tree → Prop} {P : α → Prop}
    {ofNode? : Tree → Except SyntaxError (Option α)} (word : String)
    (hbody : grammar.body r = Grammar.block keyword member) (hkind : grammar.kind r = .plain)
    (h : Parses .spaced (.call r) c c' ns)
    (hkeyword : ∀ c c' ns, Parses .spaced keyword c c' ns → Single K ns)
    (hmember : ∀ c c' ns, Parses .spaced member c c' ns →
      Single (Gives ofNode? (∀ x ∈ ·, P x)) ns) :
    Single (fun n => n.rule = r ∧ (∃ head ∈ n.children.head?, K head) ∧
      Gives (Peg.Node.block word ofNode?) (fun b => isName b.1.name.toList = true ∧ ∀ x ∈ b.2, P x)
        n) ns := by
  obtain ⟨children, hblock, rfl⟩ := h.of_call_node (by rw [hkind]; nofun)
  rw [hbody, hkind] at hblock
  obtain ⟨head, name, members, rfl, hK, ⟨-, hisName⟩, hgives⟩ :=
    nodes_of_block (m := .spaced) nofun hblock hkeyword hmember
  obtain ⟨xs, hxs, hspelled⟩ := mapM_gives hgives
  refine ⟨_, rfl, rfl, ⟨head, rfl, hK⟩, (name.ident, xs.filterMap id), ?_, hisName,
    mem_filterMap_id hspelled⟩
  simp only [Peg.Node.block, hxs]
  rfl

theorem of_keyword (r : Rule) (hr : (grammar.kind r).outerMode .spaced ≠ .atomic)
    (h : Parses .spaced (.call r) c c' ns) :
    Single (fun _ => True) ns := by
  obtain ⟨children, -, rfl⟩ := h.of_call_node hr
  exact ⟨_, rfl, trivial⟩

theorem of_configKeyword
    (h : Parses .spaced (.call .configKeyword) c c' ns) :
    Single (fun n => ∃ kind, ConfigKind.ofWord? n.string = some kind) ns := by
  obtain ⟨children, hbody, rfl⟩ := h.of_call_node nofun
  obtain ⟨c₁, _, _, hword, hend, -⟩ := hbody.of_seq
  obtain ⟨-, hc', -⟩ := hend.of_notAhead
  obtain rfl : c' = c₁ := hc'
  refine ⟨_, rfl, ?_⟩
  rcases hword.of_alt with hword | ⟨-, hword⟩
  · refine ⟨.datasource, ?_⟩
    simp only [Peg.Node.string, Cursor.textUpTo_of_past hword.of_word.1]
    decide
  · refine ⟨.generator, ?_⟩
    simp only [Peg.Node.string, Cursor.textUpTo_of_past hword.of_word.1]
    decide

/-! ### Declarations -/

/-- Nodes that are well-spelled declarations, or none. -/
abbrev GivesDeclaration : Tree → Prop :=
  Gives Declaration.ofNode? (∀ d ∈ ·, Declaration.Readable d)

theorem of_model (h : Parses .spaced (.call .modelDef) c c' ns) :
    Single GivesDeclaration ns := by
  refine (of_block "model" rfl rfl h (fun _ _ _ => of_keyword .modelKeyword nofun)
    fun _ _ _ => of_modelMember).mono ?_
  rintro n ⟨hrule, -, b, hb, hspelled⟩
  refine ⟨some (.model ⟨b.1, b.2, n.span⟩), ?_, by rintro _ ⟨⟩; exact ⟨hspelled, nofun⟩⟩
  simp only [Declaration.ofNode?, hrule, Model.ofNode, hb]
  rfl

theorem of_enum (h : Parses .spaced (.call .enumDef) c c' ns) :
    Single GivesDeclaration ns := by
  refine (of_block "enum" rfl rfl h (fun _ _ _ => of_keyword .enumKeyword nofun)
    fun _ _ _ => of_enumMember).mono ?_
  rintro n ⟨hrule, -, b, hb, hspelled⟩
  refine ⟨some (.enum ⟨b.1, b.2, n.span⟩), ?_, by rintro _ ⟨⟩; exact ⟨hspelled, nofun⟩⟩
  simp only [Declaration.ofNode?, hrule, Enum.ofNode, hb]
  rfl

theorem of_config (h : Parses .spaced (.call .configBlock) c c' ns) :
    Single GivesDeclaration ns := by
  refine (of_block "block" rfl rfl h (fun _ _ _ => of_configKeyword)
    fun _ _ _ => of_configMember).mono ?_
  rintro n ⟨hrule, ⟨head, hhead, kind, hkind⟩, b, hb, hspelled⟩
  obtain ⟨rest, hchildren⟩ := List.head?_eq_some_iff.mp hhead
  refine ⟨some (.config ⟨kind, b.1, b.2, n.span⟩), ?_, by rintro _ ⟨⟩; exact ⟨hspelled, nofun⟩⟩
  simp only [Declaration.ofNode?, hrule, ConfigBlock.ofNode, hchildren, hkind, hb]
  rfl

theorem of_comments (h : Parses .spaced (.call .commentBlock) c c' ns) :
    Single GivesDeclaration ns := by
  obtain ⟨children, hbody, rfl⟩ := h.of_call_node nofun
  obtain ⟨c₁, _, rest, hfirst, hrest, rfl⟩ := hbody.of_seq
  obtain ⟨first, rfl, -, hspelled⟩ := of_comment hfirst
  have hrest : ∀ n ∈ rest, n.isComment = true ∧ n.comment.WellSpelled := by
    refine of_rounds hrest fun c₁ c₂ ns hround => ?_
    obtain ⟨_, _, _, hline, hcomment, rfl⟩ := hround.of_seq
    obtain rfl := of_newline hline
    exact mem_of_single (of_comment hcomment)
  refine ⟨_, rfl, _, rfl, ?_⟩
  rintro _ ⟨⟩
  constructor
  · intro d hd
    obtain ⟨n, hn, rfl⟩ := List.mem_map.mp hd
    rcases List.mem_cons.mp hn with rfl | hn
    · exact hspelled
    · exact (hrest n hn).2
  · rintro _ ⟨⟩
    exact List.cons_ne_nil _ _

theorem of_declaration (h : Parses .spaced declaration c c' ns) :
    ∀ n ∈ ns, GivesDeclaration n := by
  rcases h.of_alt with hline | ⟨-, h⟩
  · obtain rfl := of_newline hline
    nofun
  rcases h.of_alt with hcomments | ⟨-, h⟩
  · exact mem_of_single (of_comments hcomments)
  rcases h.of_alt with hconfig | ⟨-, h⟩
  · exact mem_of_single (of_config hconfig)
  rcases h.of_alt with hmodel | ⟨-, henum⟩
  · exact mem_of_single (of_model hmodel)
  · exact mem_of_single (of_enum henum)

/-- The end of the text declares nothing. -/
theorem of_endOfText (h : Parses .spaced (.call .endOfText) c c' ns) :
    ∀ n ∈ ns, GivesDeclaration n := by
  obtain ⟨children, -, rfl⟩ := h.of_call_node nofun
  exact mem_of_single ⟨_, rfl, none, rfl, nofun⟩

/-- What is read as a schema is one, and it is well spelled, with a comment in each block of
comments. -/
theorem of_schema (h : Parses .spaced (.call .schema) c c' ns) :
    Single (Gives Schema.ofNode Schema.Readable) ns := by
  obtain ⟨children, hbody, rfl⟩ := h.of_call_node nofun
  obtain ⟨c₁, _, _, hstart, hrest, rfl⟩ := hbody.of_seq
  obtain ⟨c₂, ds, _, hrounds, hend, rfl⟩ := hrest.of_seq
  obtain ⟨-, rfl⟩ := hstart.of_start
  have hnodes : ∀ n ∈ ds, GivesDeclaration n := of_rounds hrounds fun _ _ _ => of_declaration
  obtain ⟨xs, hxs, hspelled⟩ := mapM_gives fun n hn =>
    (List.mem_append.mp hn).elim (hnodes n) (of_endOfText hend n)
  refine ⟨_, rfl, ⟨xs.filterMap id⟩, ?_, mem_filterMap_id hspelled⟩
  simp only [Schema.ofNode, List.nil_append, hxs]
  rfl

end Pseudonym

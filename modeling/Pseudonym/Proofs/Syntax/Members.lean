/-
# Writing and reading members

A well-spelled member is read as it is spelled, with the comment behind it: a
field with its type, a value of an enum, an attribute of a block, a property.
Its line is the member with the comment as it is written at the end of a line.
-/
import Pseudonym.Proofs.Syntax.Attributes

namespace Pseudonym

open Peg

variable {w k : List Char}

/-! ### Types -/

/-- A node that is a type, up to places. -/
def IsType (type : FieldType) (n : Tree) : Prop :=
  ∃ type', FieldType.ofNode? n = some type' ∧ type'.unplaced = type.unplaced

/-- A name that no parenthesis follows is no type of the database. -/
theorem refuses_unsupported (hw : isName w = true) (hk : EndsName k)
    (hparen : Refuses grammar .spaced (Grammar.lit "(") k) :
    Refuses grammar .compact (.call .unsupportedType) (w ++ k) := by
  have hflush := ((solid_of_isName hw).append k).flush
  refine .call ?_ fun _ => hflush
  by_cases hpre : "Unsupported".toList <+: w ++ k
  · obtain ⟨t, rfl⟩ := append_of_starts (by decide) hk hpre
    rw [List.append_assoc] at hflush ⊢
    refine .seq_second (.word fun _ => hflush) (.seq_first ?_)
    cases t with
    | nil => exact hparen
    | cons x t =>
      have hx : isNameChar x = true :=
        List.all_eq_true.mp (all_isNameChar_of_isName hw) x (by simp)
      refine refuses_mark (x := '(') (isBlank_of_isNameChar hx) ?_
      rintro rfl
      cases hx
  · exact .seq_first (.word hpre fun _ => hflush)

theorem isName_word (type : ScalarType) : isName type.word.toList = true := by
  cases type <;> decide

theorem ofWord?_word (type : ScalarType) : ScalarType.ofWord? type.word = some type := by
  cases type <;> decide

theorem FieldType.reads {type : FieldType} (ht : type.WellSpelled) (hk : EndsName k)
    (hparen : Refuses grammar .spaced (Grammar.lit "(") k) :
    Reads grammar .compact .atomic (.alt (.call .unsupportedType) (.call .identifier))
      type.render.toList k (Single (IsType type)) := by
  cases type with
  | scalar type =>
    have hname := isName_word type
    refine .second (refuses_unsupported hname hk hparen)
      ((reads_identifier (m := .compact) hname hk nofun).mono ?_)
    rintro _ ⟨n, rfl, hrule, htext⟩
    refine ⟨n, rfl, .scalar type, ?_, rfl⟩
    rw [FieldType.ofNode?, hrule]
    simp only [Peg.Node.string, htext, String.ofList_toList, ofWord?_word]
  | named ident =>
    obtain ⟨hname, hnone⟩ := ht
    refine .second (refuses_unsupported hname hk hparen)
      ((reads_identifier (m := .compact) hname hk nofun).mono ?_)
    rintro _ ⟨n, rfl, hrule, htext⟩
    have hstring : n.string = ident.name := by
      rw [Peg.Node.string, htext, String.ofList_toList]
    refine ⟨n, rfl, .named n.ident, ?_, ?_⟩
    · rw [FieldType.ofNode?, hrule]
      simp only [hstring, hnone]
    · rw [FieldType.unplaced, FieldType.unplaced, Peg.Node.ident, hstring]
      rfl
  | unsupported text =>
    have hword : (FieldType.unsupported text).render.toList =
        "Unsupported".toList ++ (['('] ++ ('"' :: (text.toList ++ ['"']) ++ [')'])) := by
      rw [FieldType.render, String.toList_append, String.toList_append]
      simp
    have hbody : Reads grammar .spaced .atomic (Grammar.body .unsupportedType)
        ("Unsupported".toList ++ (['('] ++ ('"' :: (text.toList ++ ['"']) ++ [')']))) k
        (Single (IsLiteral text.toList)) :=
      Reads.silent_then (.word fun _ => Solid.flush ⟨'U', _, rfl, rfl⟩)
        ((reads_mark rfl _).silent_then ((reads_string ht _).then_silent (reads_mark rfl k)))
    have hcall : Reads grammar .compact .atomic (.call .unsupportedType) _ k _ :=
      .call hbody (fun _ => Solid.flush ⟨'U', _, rfl, rfl⟩) (by decide)
    rw [hword]
    refine .first (hcall.mono ?_)
    rintro _ ⟨n, rfl, hrule, literal, hchildren, -, content, hcontent, -, htext⟩
    refine ⟨n, rfl, .unsupported text, ?_, rfl⟩
    rw [FieldType.ofNode?, hrule]
    simp only [hchildren, hcontent, Peg.Node.firstText, htext, String.ofList_toList]

/-- The nodes of the markers behind a type. -/
def AreMarkers (modifier : TypeModifier) (ns : List Tree) : Prop :=
  (∀ n ∈ ns, n.rule = .listMarker ∨ n.rule = .optionalMarker) ∧
    ns.any (·.rule = .listMarker) = modifier.isList ∧
    ns.any (·.rule = .optionalMarker) = modifier.isOptional

theorem EndsValue.head_ne_marker (hk : EndsValue k) : k.head? ≠ some '[' ∧ k.head? ≠ some '?' := by
  obtain ⟨x, t, rfl, hx⟩ := hk
  refine ⟨?_, ?_⟩ <;> rintro ⟨⟩ <;> revert hx <;> decide

theorem reads_markers (modifier : TypeModifier) (hk : EndsValue k) :
    Reads grammar .compact .compact
      (.seq (.opt (.call .listMarker)) (.opt (.call .optionalMarker))) modifier.suffix.toList k
      (AreMarkers modifier) := by
  obtain ⟨hbracket, hmark⟩ := hk.head_ne_marker
  have hlist : ∀ k, Reads grammar .compact .compact (.call .listMarker) ['[', ']'] k
      (Single (Node.Spells .listMarker ['[', ']'])) := fun k =>
    .token (P := Silent) (.word nofun) (fun h => by rcases h with h | h <;> cases h) nofun
  have hoptional : Reads grammar .compact .compact (.call .optionalMarker) ['?'] k
      (Single (Node.Spells .optionalMarker ['?'])) :=
    .token (P := Silent) (.word nofun) (fun h => by rcases h with h | h <;> cases h) nofun
  have hnolist : ∀ k, k.head? ≠ some '[' → Refuses grammar .compact (.call .listMarker) k :=
    fun k hk => .call (.word (by rintro ⟨v, rfl⟩; exact hk rfl) nofun)
      fun h => by rcases h with h | h <;> cases h
  have hnooptional : Refuses grammar .compact (.call .optionalMarker) k :=
    .call (.word (by rintro ⟨v, rfl⟩; exact hmark rfl) nofun)
      fun h => by rcases h with h | h <;> cases h
  cases modifier with
  | required =>
    refine (Reads.then_nothing (.opt_none (hnolist k hbracket)) (.opt_none hnooptional)).mono ?_
    rintro _ rfl
    exact ⟨nofun, rfl, rfl⟩
  | optional =>
    refine (Reads.silent_then (w := []) (.opt_none (hnolist _ ?_)) hoptional.opt).mono ?_
    · nofun
    · rintro _ ⟨n, rfl, hrule, -⟩
      simp [AreMarkers, hrule, TypeModifier.isList, TypeModifier.isOptional]
  | list =>
    refine (Reads.then_nothing (hlist k).opt (.opt_none hnooptional)).mono ?_
    rintro _ ⟨n, rfl, hrule, -⟩
    simp [AreMarkers, hrule, TypeModifier.isList, TypeModifier.isOptional]
  | optionalList =>
    refine (hlist _).opt.seq hoptional.opt ?_
    rintro _ _ ⟨n, rfl, hrule, -⟩ ⟨n', rfl, hrule', -⟩
    simp [AreMarkers, hrule, hrule', TypeModifier.isList, TypeModifier.isOptional]

/-- The node of a type and its markers. -/
def IsFieldType (type : FieldType) (modifier : TypeModifier) (n : Tree) : Prop :=
  ∃ type', (n.children.filterMap FieldType.ofNode?).getLast? = some type' ∧
    type'.unplaced = type.unplaced ∧ TypeModifier.ofNodes n.children = modifier

theorem isFieldType_of_parts {type : FieldType} {modifier : TypeModifier} {n typeNode : Tree}
    {markers : List Tree} (hchildren : n.children = typeNode :: markers)
    (htype : IsType type typeNode) (hmarkers : AreMarkers modifier markers) :
    IsFieldType type modifier n := by
  obtain ⟨type', htype', hunplaced⟩ := htype
  obtain ⟨hrules, hlist, hoptional⟩ := hmarkers
  have hnone : markers.filterMap FieldType.ofNode? = [] := by
    rw [List.filterMap_eq_nil_iff]
    intro marker hmarker
    rcases hrules marker hmarker with hrule | hrule <;> rw [FieldType.ofNode?, hrule]
  -- The node of the type itself is no marker.
  have hrule : typeNode.rule ≠ .listMarker ∧ typeNode.rule ≠ .optionalMarker := by
    refine ⟨?_, ?_⟩ <;> intro hrule <;> rw [FieldType.ofNode?, hrule] at htype' <;> cases htype'
  refine ⟨type', ?_, hunplaced, ?_⟩
  · rw [hchildren, List.filterMap_cons_some htype', hnone]
    rfl
  · rw [TypeModifier.ofNodes, hchildren, List.any_cons, List.any_cons, hlist, hoptional]
    simp only [hrule.1, hrule.2, decide_false, Bool.false_or]
    cases modifier <;> rfl

theorem FieldType.solid_render {type : FieldType} (ht : type.WellSpelled) :
    Solid type.render.toList := by
  cases type with
  | scalar type => exact solid_of_isName (isName_word type)
  | named ident => exact solid_of_isName ht.1
  | unsupported text =>
    rw [FieldType.render, String.toList_append, String.toList_append]
    exact ⟨'U', _, rfl, rfl⟩

/-- A well-spelled type and its modifier are read as they are written. -/
theorem reads_fieldType {type : FieldType} (modifier : TypeModifier) (ht : type.WellSpelled)
    (hk : EndsValue k) (hparen : Refuses grammar .spaced (Grammar.lit "(") k) :
    ReadsAs (.call .fieldType)
      (type.render.toList ++ modifier.suffix.toList) k (Single (IsFieldType type modifier)) := by
  have hends : EndsName (modifier.suffix.toList ++ k) ∧
      Refuses grammar .spaced (Grammar.lit "(") (modifier.suffix.toList ++ k) := by
    cases modifier with
    | required => exact ⟨hk.apart.endsName, hparen⟩
    | optional =>
      exact ⟨fun x hx => by cases hx; rfl, refuses_mark (x := '(') (y := '?') rfl (by decide)⟩
    | list =>
      exact ⟨fun x hx => by cases hx; rfl, refuses_mark (x := '(') (y := '[') rfl (by decide)⟩
    | optionalList =>
      exact ⟨fun x hx => by cases hx; rfl, refuses_mark (x := '(') (y := '[') rfl (by decide)⟩
  have hbody : Reads grammar .compact .compact (Grammar.body .fieldType)
      (type.render.toList ++ modifier.suffix.toList) k
      (fun ns => ∃ typeNode markers, ns = typeNode :: markers ∧ IsType type typeNode ∧
        AreMarkers modifier markers) := by
    refine (FieldType.reads ht hends.1 hends.2).seq (reads_markers modifier hk) ?_
    rintro _ after ⟨n, rfl, hn⟩ hafter
    exact ⟨n, after, rfl, hn, hafter⟩
  have hsolid := ((FieldType.solid_render ht).append modifier.suffix.toList).append k
  refine (reads_rule .fieldType hsolid (hbody.relax .spaced)).mono ?_
  rintro _ ⟨n, rfl, -, typeNode, markers, hchildren, htype, hmarkers⟩
  exact ⟨n, rfl, isFieldType_of_parts hchildren htype hmarkers⟩

/-! ### Fields and values of enums -/

theorem refuses_paren_tail (attributes : List Attribute) (c : Option Comment) (k : List Char) :
    Refuses grammar .spaced (Grammar.lit "(") ((Attribute.renderTail attributes).toList ++
      (Comment.behind c ++ '\n' :: k)) := by
  cases attributes with
  | nil => exact refuses_behind c k rfl rfl (by decide) (by decide)
  | cons a attributes =>
    rw [Attribute.toList_renderTail, List.map_cons, List.flatten_cons, Attribute.toList_render]
    exact .blanks (b := [' ']) (refuses_mark (x := '(') (y := '@') rfl (by decide)) rfl

/-- How a field is spelled, with the comment behind it. -/
def Field.word (f : Field) : List Char :=
  f.name.name.toList ++ ([' '] ++ (f.type.render.toList ++ f.modifier.suffix.toList) ++
    ((Attribute.renderTail f.attributes).toList ++ Comment.behind f.comment))

/-- The field as it is written, where a comment without text is one for readers. -/
def Field.atEnd (f : Field) : Field := { f with comment := f.comment.map (·.atEnd) }

theorem Field.toList_line (f : Field) : f.line.toList = [' ', ' '] ++ f.atEnd.word := by
  simp [Field.line, Field.word, Field.atEnd, String.toList_append, Comment.toList_trailing]

theorem Field.wellSpelled_atEnd {f : Field} (hf : f.WellSpelled) : f.atEnd.WellSpelled :=
  { hf with comment := Comment.wellSpelled_atEnd hf.comment }

theorem Field.solid_word {f : Field} (hf : f.WellSpelled) : Solid f.word :=
  (solid_of_isName hf.name).append _

/-- A node of a rule that is `x`, up to places. -/
def IsOf {α : Type} (rule : Rule) (ofNode : Tree → Except SyntaxError α) (unplaced : α → α) (x : α)
    (n : Tree) : Prop := n.rule = rule ∧ ∃ x', ofNode n = .ok x' ∧ unplaced x' = unplaced x

/-- A well-spelled field is read as it is spelled. -/
theorem Field.reads {f : Field} (hf : f.WellSpelled) (k : List Char) :
    ReadsAs (.call .fieldDef) f.word ('\n' :: k)
      (Single (IsOf .fieldDef Field.ofNode Field.unplaced f)) := by
  have hends := endsValue_tail f.attributes f.comment k
  have hparen := refuses_paren_tail f.attributes f.comment k
  rw [← List.append_assoc] at hends hparen
  have htype := (reads_fieldType f.modifier hf.type hends hparen).blanks (b := [' ']) rfl
  have htail := reads_tail hf.attributes hf.comment k
  have hbody : ReadsAs (Grammar.body .fieldDef) f.word ('\n' :: k)
      (fun ns => ∃ name type rest, ns = name :: type :: rest ∧ name.text = f.name.name.toList ∧
        IsFieldType f.type f.modifier type ∧ AreTail f.attributes f.comment rest) := by
    refine (reads_identifier (m := .spaced) hf.name ?_ nofun).seq (htype.seq htail
      (T := fun ns => ∃ type rest, ns = type :: rest ∧ IsFieldType f.type f.modifier type ∧
        AreTail f.attributes f.comment rest) ?_) ?_
    · exact (apart_cons (x := ' ') ⟨rfl, by decide⟩).endsName
    · rintro _ rest ⟨type, rfl, htype⟩ hrest
      exact ⟨type, rest, rfl, htype, hrest⟩
    · rintro _ _ ⟨name, rfl, hname⟩ ⟨type, rest, rfl, htype, hrest⟩
      exact ⟨name, type, rest, rfl, hname.text, htype, hrest⟩
  refine (reads_rule .fieldDef ((Field.solid_word hf).append _) hbody).mono ?_
  rintro _ ⟨n, rfl, hrule, name, type, rest, hchildren, hname, ⟨type', htype', hunplaced, hmodifier⟩,
    hrest⟩
  obtain ⟨attributes, hattributes, hunplaced'⟩ := hrest.attributes
  refine ⟨n, rfl, hrule, ⟨name.ident, type', f.modifier, attributes, Peg.Node.lastComment? rest,
    n.span⟩, ?_, ?_⟩
  · rw [Field.ofNode, hchildren]
    dsimp only
    rw [htype']
    dsimp only
    rw [hattributes, hmodifier]
    rfl
  · rw [Field.unplaced, Field.unplaced, unplaced_ident hname, hunplaced, hunplaced', hrest.comment]

/-- How a value of an enum is spelled, with the comment behind it. -/
def EnumValue.word (v : EnumValue) : List Char :=
  v.name.name.toList ++ ((Attribute.renderTail v.attributes).toList ++ Comment.behind v.comment)

@[inherit_doc Field.atEnd]
def EnumValue.atEnd (v : EnumValue) : EnumValue := { v with comment := v.comment.map (·.atEnd) }

theorem EnumValue.toList_line (v : EnumValue) : v.line.toList = [' ', ' '] ++ v.atEnd.word := by
  simp [EnumValue.line, EnumValue.word, EnumValue.atEnd, String.toList_append,
    Comment.toList_trailing]

theorem EnumValue.wellSpelled_atEnd {v : EnumValue} (hv : v.WellSpelled) : v.atEnd.WellSpelled :=
  { hv with comment := Comment.wellSpelled_atEnd hv.comment }

theorem EnumValue.solid_word {v : EnumValue} (hv : v.WellSpelled) : Solid v.word :=
  (solid_of_isName hv.name).append _

/-- A well-spelled value of an enum is read as it is spelled. -/
theorem EnumValue.reads {v : EnumValue} (hv : v.WellSpelled) (k : List Char) :
    ReadsAs (.call .enumValue) v.word ('\n' :: k)
      (Single (IsOf .enumValue EnumValue.ofNode EnumValue.unplaced v)) := by
  have hends := endsValue_tail v.attributes v.comment k
  rw [← List.append_assoc] at hends
  have hbody : ReadsAs (Grammar.body .enumValue) v.word ('\n' :: k)
      (fun ns => ∃ name rest, ns = name :: rest ∧ name.text = v.name.name.toList ∧
        AreTail v.attributes v.comment rest) := by
    refine (reads_identifier (m := .spaced) hv.name hends.apart.endsName nofun).seq
      (reads_tail hv.attributes hv.comment k) ?_
    rintro _ rest ⟨name, rfl, hname⟩ hrest
    exact ⟨name, rest, rfl, hname.text, hrest⟩
  refine (reads_rule .enumValue ((EnumValue.solid_word hv).append _) hbody).mono ?_
  rintro _ ⟨n, rfl, hrule, name, rest, hchildren, hname, hrest⟩
  obtain ⟨attributes, hattributes, hunplaced⟩ := hrest.attributes
  refine ⟨n, rfl, hrule, ⟨name.ident, attributes, Peg.Node.lastComment? rest, n.span⟩, ?_, ?_⟩
  · rw [EnumValue.ofNode, hchildren]
    dsimp only
    rw [hattributes]
    rfl
  · rw [EnumValue.unplaced, EnumValue.unplaced, unplaced_ident hname, hunplaced, hrest.comment]

/-! ### Attributes of blocks and properties -/

theorem IsTrailing.head? {c : Option Comment} {ns : List Tree} (h : IsTrailing c ns) :
    (ns.head?.map Peg.Node.comment).map (·.unplaced) = c.map (·.unplaced) := by
  cases c with
  | none =>
    obtain rfl : ns = [] := h
    rfl
  | some c =>
    obtain ⟨n, rfl, -, hunplaced⟩ := h
    exact congrArg some hunplaced

/-- How an attribute of a block is spelled, with the comment behind it. -/
def BlockAttribute.word (a : BlockAttribute) : List Char :=
  (a.attr.render "@@").toList ++ Comment.behind a.comment

@[inherit_doc Field.atEnd]
def BlockAttribute.atEnd (a : BlockAttribute) : BlockAttribute :=
  { a with comment := a.comment.map (·.atEnd) }

theorem BlockAttribute.toList_line (a : BlockAttribute) :
    a.line.toList = [' ', ' '] ++ a.atEnd.word := by
  simp [BlockAttribute.line, BlockAttribute.word, BlockAttribute.atEnd, String.toList_append,
    Comment.toList_trailing]

theorem BlockAttribute.wellSpelled_atEnd {a : BlockAttribute} (ha : a.WellSpelled) :
    a.atEnd.WellSpelled := { ha with comment := Comment.wellSpelled_atEnd ha.comment }

theorem BlockAttribute.solid_word (a : BlockAttribute) : Solid a.word := by
  rw [BlockAttribute.word, Attribute.toList_render]
  exact ⟨'@', _, rfl, rfl⟩

/-- A well-spelled attribute of a block is read as it is spelled. -/
theorem BlockAttribute.reads {a : BlockAttribute} (ha : a.WellSpelled) (k : List Char) :
    ReadsAs (.call .blockAttributeDef) a.word ('\n' :: k)
      (Single (IsOf .blockAttributeDef BlockAttribute.ofNode BlockAttribute.unplaced a)) := by
  have hbody : ReadsAs (Grammar.body .blockAttributeDef) a.word ('\n' :: k)
      (fun ns => ∃ attr rest, ns = attr :: rest ∧ IsAttribute a.attr attr ∧
        IsTrailing a.comment rest) := by
    refine (Attribute.reads_block ha.attr (endsValue_behind a.comment k)).seq
      (Comment.reads_behind ha.comment k) ?_
    rintro _ rest ⟨attr, rfl, hattr⟩ hrest
    exact ⟨attr, rest, rfl, hattr, hrest⟩
  refine (reads_rule .blockAttributeDef (a.solid_word.append _) hbody).mono ?_
  rintro _ ⟨n, rfl, hrule, attr, rest, hchildren, ⟨attr', hattr', hunplaced⟩, hrest⟩
  refine ⟨n, rfl, hrule, ⟨attr', rest.head?.map Peg.Node.comment⟩, ?_, ?_⟩
  · rw [BlockAttribute.ofNode, hchildren]
    dsimp only
    rw [hattr']
    rfl
  · rw [BlockAttribute.unplaced, BlockAttribute.unplaced, hunplaced, hrest.head?]

/-- How a property is spelled, with the comment behind it. -/
def Property.word (p : Property) : List Char :=
  p.name.name.toList ++ ([' '] ++ ['='] ++ ([' '] ++ p.value.render.toList ++
    Comment.behind p.comment))

@[inherit_doc Field.atEnd]
def Property.atEnd (p : Property) : Property := { p with comment := p.comment.map (·.atEnd) }

theorem Property.toList_line (p : Property) : p.line.toList = [' ', ' '] ++ p.atEnd.word := by
  simp [Property.line, Property.word, Property.atEnd, String.toList_append, Comment.toList_trailing]

theorem Property.wellSpelled_atEnd {p : Property} (hp : p.WellSpelled) : p.atEnd.WellSpelled :=
  { hp with comment := Comment.wellSpelled_atEnd hp.comment }

theorem Property.solid_word {p : Property} (hp : p.WellSpelled) : Solid p.word :=
  (solid_of_isName hp.name).append _

/-- A well-spelled property is read as it is spelled. -/
theorem Property.reads {p : Property} (hp : p.WellSpelled) (k : List Char) :
    ReadsAs (.call .configProperty) p.word ('\n' :: k)
      (Single (IsOf .configProperty Property.ofNode Property.unplaced p)) := by
  have hvalue := (Value.reads p.value hp.value _ (endsValue_behind p.comment k)).blanks
    (b := [' ']) rfl
  have hrest : ReadsAs
      (.seq (Grammar.lit "=") (.seq Grammar.value Grammar.trailingComment))
      ([' '] ++ ['='] ++ ([' '] ++ p.value.render.toList ++ Comment.behind p.comment))
      ('\n' :: k) (fun ns => ∃ value rest, ns = value :: rest ∧ IsValue p.value value ∧
        IsTrailing p.comment rest) := by
    refine ((reads_mark rfl _).blanks (b := [' ']) rfl).silent_then
      (hvalue.seq (Comment.reads_behind hp.comment k) ?_)
    rintro _ rest ⟨value, rfl, hvalue⟩ hrest
    exact ⟨value, rest, rfl, hvalue, hrest⟩
  have hbody : ReadsAs (Grammar.body .configProperty) p.word ('\n' :: k)
      (fun ns => ∃ name value rest, ns = name :: value :: rest ∧
        name.text = p.name.name.toList ∧ IsValue p.value value ∧
        IsTrailing p.comment rest) := by
    refine (reads_identifier (m := .spaced) hp.name ?_ nofun).seq hrest ?_
    · exact (apart_cons (x := ' ') ⟨rfl, by decide⟩).endsName
    · rintro _ _ ⟨name, rfl, hname⟩ ⟨value, rest, rfl, hvalue, hrest⟩
      exact ⟨name, value, rest, rfl, hname.text, hvalue, hrest⟩
  refine (reads_rule .configProperty ((Property.solid_word hp).append _) hbody).mono ?_
  rintro _ ⟨n, rfl, hrule, name, value, rest, hchildren, hname, ⟨value', hvalue', hunplaced⟩, hrest⟩
  refine ⟨n, rfl, hrule, ⟨name.ident, value', rest.head?.map Peg.Node.comment, n.span⟩, ?_, ?_⟩
  · rw [Property.ofNode, hchildren]
    dsimp only
    rw [hvalue']
    rfl
  · rw [Property.unplaced, Property.unplaced, unplaced_ident hname, hunplaced, hrest.head?]

end Pseudonym

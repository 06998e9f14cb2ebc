/-
# Writing and reading attributes and ends of lines

A well-spelled attribute is read as it is written, with its arguments or
without, and so are the attributes on a line and the comment behind them. A
comment without text is written at the end of a line as one for readers.
-/
import Pseudonym.Proofs.Syntax.Values

namespace Pseudonym

open Peg

variable {w k : List Char}

/-! ### Attributes -/

/-- A node that is an attribute, up to places. -/
def IsAttribute (a : Attribute) (n : Tree) : Prop :=
  ∃ a', Attribute.ofNode n = .ok a' ∧ a'.unplaced = a.unplaced

/-- The nodes that an attribute leaves: its name and its arguments, if any. -/
def AreParts (a : Attribute) (ns : List Tree) : Prop :=
  ∃ name, name.text = a.name.name.toList ∧
    (ns = [name] ∧ a.args = [] ∨ ∃ list, ns = [name, list] ∧ AreArguments a.args list)

theorem unplaced_ident {n : Tree} {ident : Ident} (h : n.text = ident.name.toList) :
    n.ident.unplaced = ident.unplaced := by
  rw [Peg.Node.ident, Peg.Node.string, h, String.ofList_toList]
  rfl

theorem isAttribute_of_areParts {a : Attribute} {n : Tree} (h : AreParts a n.children) :
    IsAttribute a n := by
  obtain ⟨name, hname, hparts⟩ := h
  have hident := unplaced_ident hname
  rcases hparts with ⟨hchildren, hargs⟩ | ⟨list, hchildren, hlist⟩
  · refine ⟨⟨name.ident, [], n.span⟩, ?_, ?_⟩
    · rw [Attribute.ofNode, hchildren]
    · rw [Attribute.unplaced, Attribute.unplaced, hident, hargs]
  · obtain ⟨args, hargs, hunplaced⟩ := listOfNode_arguments hlist
    refine ⟨⟨name.ident, args, n.span⟩, ?_, ?_⟩
    · rw [Attribute.ofNode, hchildren]
      dsimp only
      rw [hargs]
      rfl
    · rw [Attribute.unplaced, Attribute.unplaced, hident, hunplaced]

/-- What stands behind the sign of an attribute. -/
def Attribute.word (a : Attribute) : List Char :=
  a.name.name.toList ++ if a.args.isEmpty then [] else Argument.listWord a.args

theorem Attribute.toList_render (sign : String) (a : Attribute) :
    (a.render sign).toList = sign.toList ++ a.word := by
  rw [Attribute.render, Attribute.word]
  cases a.args.isEmpty with
  | true => simp [String.toList_append]
  | false =>
    have hlist := Argument.toList_list a.args
    rw [String.append_assoc] at hlist
    simp only [Bool.false_eq_true, ↓reduceIte]
    rw [String.append_assoc, String.append_assoc, String.append_assoc, String.toList_append,
      String.toList_append, hlist]

theorem Attribute.reads_body {a : Attribute} (sign : String) (ha : a.WellSpelled)
    (hk : EndsValue k) :
    Reads grammar .compact .atomic
      (Grammar.all (Grammar.lit sign) [.call .path, .opt (.call .arguments)])
      (a.render sign).toList k (AreParts a) := by
  obtain ⟨hname, hargs⟩ := ha
  rw [Attribute.toList_render, Attribute.word]
  refine Reads.silent_then (.word nofun) ?_
  cases hempty : a.args.isEmpty with
  | true =>
    have hnone : a.args = [] := List.isEmpty_iff.mp hempty
    rw [if_pos rfl, List.append_nil]
    refine (Reads.then_nothing (reads_path (m := .compact) hname hk.apart nofun)
      (.opt_none (refuses_arguments hk.head_ne))).mono ?_
    rintro _ ⟨name, rfl, hspells⟩
    exact ⟨name, hspells.text, .inl ⟨rfl, hnone⟩⟩
  | false =>
    have heach := Argument.reads_each a.args hargs
    have hlist := reads_arguments (fun b hb => (heach b hb).1) (fun b hb => (heach b hb).2) k
    rw [if_neg Bool.false_ne_true]
    refine Reads.seq (reads_path (m := .compact) hname ?_ nofun) hlist.opt ?_
    · exact apart_cons (x := '(') ⟨rfl, by decide⟩
    · rintro _ _ ⟨name, rfl, hspells⟩ ⟨list, rfl, hlist⟩
      exact ⟨name, hspells.text, .inr ⟨list, rfl, hlist⟩⟩

/-- A well-spelled attribute of a field is read as it is written. -/
theorem Attribute.reads_field {a : Attribute} (ha : a.WellSpelled) (hk : EndsValue k) :
    ReadsAs (.call .fieldAttribute) (a.render "@").toList k
      (Single fun n => n.rule = .fieldAttribute ∧ IsAttribute a n) := by
  have hsolid : Solid ((a.render "@").toList ++ k) := by
    rw [Attribute.toList_render]
    exact ⟨'@', _, rfl, rfl⟩
  have hcall := reads_rule .fieldAttribute hsolid ((Attribute.reads_body "@" ha hk).relax .spaced)
  exact hcall.mono fun _ ⟨n, hns, hrule, hn⟩ => ⟨n, hns, hrule, isAttribute_of_areParts hn⟩

/-- A well-spelled attribute of a block is read as it is written. -/
theorem Attribute.reads_block {a : Attribute} (ha : a.WellSpelled) (hk : EndsValue k) :
    ReadsAs (.call .blockAttribute) (a.render "@@").toList k
      (Single (IsAttribute a)) := by
  have hsolid : Solid ((a.render "@@").toList ++ k) := by
    rw [Attribute.toList_render]
    exact ⟨'@', _, rfl, rfl⟩
  have hcall := reads_rule .blockAttribute hsolid ((Attribute.reads_body "@@" ha hk).relax .spaced)
  exact hcall.mono fun _ ⟨n, hns, _, hn⟩ => ⟨n, hns, isAttribute_of_areParts hn⟩

/-! ### The end of a line -/

/-- The nodes of a comment at the end of a line, or of none. -/
def IsTrailing (c : Option Comment) (ns : List Tree) : Prop :=
  match c with
  | none => ns = []
  | some c => Single (IsComment c) ns

/-- How the comment at the end of a line is spelled. -/
def Comment.behind : Option Comment → List Char
  | none => []
  | some c => [' '] ++ c.render.toList

/-- A comment without text is written as one for readers of the source. -/
theorem Comment.toList_trailing (c : Option Comment) :
    (Comment.trailing c).toList = Comment.behind (c.map (·.atEnd)) := by
  cases c with
  | none => rfl
  | some c =>
    rw [Comment.trailing, Option.map_some, Comment.behind, Comment.atEnd]
    cases hempty : c.isEmpty with
    | true =>
      have htext : ({ c with kind := .line } : Comment).isEmpty = true := hempty
      simp only [↓reduceIte]
      rw [Comment.render, if_pos htext]
      show " //".toList = [' '] ++ "//".toList
      decide
    | false =>
      simp only [Bool.false_eq_true, ↓reduceIte]
      rw [String.toList_append]
      rfl

theorem Comment.wellSpelled_atEnd {c : Option Comment} (hc : ∀ c' ∈ c, c'.WellSpelled) :
    ∀ c' ∈ c.map (·.atEnd), c'.WellSpelled := by
  intro c' hc'
  obtain ⟨c, rfl, rfl⟩ := Option.map_eq_some_iff.mp hc'
  rw [Comment.atEnd]
  split
  · exact hc c rfl
  · exact hc c rfl

/-- The end of a line starts with a space, or the line ends. -/
theorem endsValue_behind (c : Option Comment) (k : List Char) :
    EndsValue (Comment.behind c ++ '\n' :: k) := by
  cases c with
  | none => exact ⟨'\n', k, rfl, by decide⟩
  | some c => exact ⟨' ', _, rfl, by decide⟩

/-- Behind the blanks the end of a line is a slash or a line feed. -/
theorem refuses_behind {e : Expr Rule} (c : Option Comment) (k : List Char)
    (hs : e.steady survey.empty = true) (he : e.mayBeEmpty survey.empty = false)
    (hslash : survey.mayOpen e '/' = false) (hline : survey.mayOpen e '\n' = false) :
    Refuses grammar .spaced e (Comment.behind c ++ '\n' :: k) := by
  cases c with
  | none =>
    refine .of_opening survey hs he ?_ ?_
    · intro x hx
      cases hx
      rfl
    · intro x hx
      cases hx
      exact hline
  | some c =>
    rw [Comment.behind, Comment.toList_render, List.append_assoc]
    refine .blanks (b := [' ']) ?_ rfl
    cases c.kind with
    | doc => exact refuses_at hs he rfl hslash
    | line => exact refuses_at hs he rfl hslash

theorem Comment.reads_behind {c : Option Comment} (hc : ∀ c' ∈ c, c'.WellSpelled)
    (k : List Char) :
    ReadsAs Grammar.trailingComment (Comment.behind c) ('\n' :: k)
      (IsTrailing c) := by
  cases c with
  | none =>
    refine Reads.opt_none (.of_opening survey rfl rfl ?_ ?_)
    · intro x hx
      cases hx
      rfl
    · intro x hx
      cases hx
      decide
  | some c => exact .opt (.blanks (Comment.reads (hc c rfl) k) rfl)

/-! ### Attributes and the end of a line -/

/-- The node of an attribute behind a field or a value of an enum. -/
def IsFieldAttribute (a : Attribute) (n : Tree) : Prop :=
  n.rule = .fieldAttribute ∧ IsAttribute a n

/-- The nodes of attributes with a comment behind them, or none. -/
def AreTail (attributes : List Attribute) (c : Option Comment) (ns : List Tree) : Prop :=
  ∃ before after, ns = before ++ after ∧ List.Forall₂ IsFieldAttribute attributes before ∧
    IsTrailing c after

theorem Attribute.toList_renderTail (attributes : List Attribute) :
    (Attribute.renderTail attributes).toList =
      (attributes.map fun a => [' '] ++ (a.render "@").toList).flatten := by
  rw [Attribute.renderTail, String.toList_join, List.flatMap_map]
  simp only [String.toList_append]
  rfl

theorem endsValue_tail (attributes : List Attribute) (c : Option Comment) (k : List Char) :
    EndsValue ((Attribute.renderTail attributes).toList ++ (Comment.behind c ++ '\n' :: k)) := by
  cases attributes with
  | nil => exact endsValue_behind c k
  | cons a attributes =>
    rw [Attribute.toList_renderTail]
    exact ⟨' ', _, rfl, by decide⟩

theorem readsMore_attributes (c : Option Comment) (k : List Char) : ∀ attributes : List Attribute,
    (∀ a ∈ attributes, a.WellSpelled) →
    ReadsMore grammar .spaced (.call .fieldAttribute) (Attribute.renderTail attributes).toList
      (Comment.behind c ++ '\n' :: k) (List.Forall₂ IsFieldAttribute attributes)
  | [], _ => by
    refine (ReadsMore.none (refuses_behind c k rfl rfl (by decide) (by decide))).mono ?_
    rintro _ rfl
    exact .nil
  | a :: attributes, h => by
    have ih := readsMore_attributes c k attributes fun b hb => h b (List.mem_cons_of_mem a hb)
    have hends := endsValue_tail attributes c k
    have hread := (Attribute.reads_field (h a List.mem_cons_self) hends).blanks (b := [' ']) rfl
    have hword : (Attribute.renderTail (a :: attributes)).toList =
        [' '] ++ (a.render "@").toList ++ (Attribute.renderTail attributes).toList := by
      rw [Attribute.toList_renderTail, Attribute.toList_renderTail, List.map_cons,
        List.flatten_cons]
    rw [hword]
    refine .more hread ih ?_
    rintro _ after ⟨n, rfl, hn⟩ hafter
    exact .cons hn hafter

/-- Well-spelled attributes and the comment behind them are read as they are written. -/
theorem reads_tail {attributes : List Attribute} {c : Option Comment}
    (hattributes : ∀ a ∈ attributes, a.WellSpelled) (hc : ∀ c' ∈ c, c'.WellSpelled)
    (k : List Char) :
    ReadsAs (.seq (.many (.call .fieldAttribute)) Grammar.trailingComment)
      ((Attribute.renderTail attributes).toList ++ Comment.behind c) ('\n' :: k)
      (AreTail attributes c) :=
  (readsMore_attributes c k attributes hattributes).many.seq (Comment.reads_behind hc k)
    fun before after hbefore hafter => ⟨before, after, rfl, hbefore, hafter⟩

theorem IsTrailing.isComment {c : Option Comment} {ns : List Tree} (h : IsTrailing c ns) :
    ∀ n ∈ ns, n.isComment = true := by
  intro n hn
  cases c with
  | none =>
    obtain rfl : ns = [] := h
    cases hn
  | some c =>
    obtain ⟨n', rfl, hn', -⟩ := h
    obtain rfl := List.mem_singleton.mp hn
    exact hn'

theorem rule_ne_of_isComment {n : Tree} (hn : n.isComment = true) :
    n.rule ≠ .fieldAttribute := by
  intro hrule
  rw [Peg.Node.isComment, hrule] at hn
  cases hn

theorem rule_of_isFieldAttribute {attributes : List Attribute} {ns : List Tree}
    (h : List.Forall₂ IsFieldAttribute attributes ns) : ∀ n ∈ ns, n.rule = .fieldAttribute := by
  induction h with
  | nil => nofun
  | cons hn _ ih =>
    intro n' hn'
    rcases List.mem_cons.mp hn' with rfl | hn'
    · exact hn.1
    · exact ih n' hn'

theorem mapM_attributes {attributes : List Attribute} {ns : List Tree}
    (h : List.Forall₂ IsFieldAttribute attributes ns) :
    ∃ as, ns.mapM Attribute.ofNode = .ok as ∧
      as.map (·.unplaced) = attributes.map (·.unplaced) := by
  induction h with
  | nil => exact ⟨[], rfl, rfl⟩
  | cons hn _ ih =>
    obtain ⟨-, a, ha, hunplaced⟩ := hn
    obtain ⟨as, has, hunplaced'⟩ := ih
    refine ⟨a :: as, ?_, ?_⟩
    · rw [List.mapM_cons, ha, has]
      rfl
    · rw [List.map_cons, List.map_cons, hunplaced, hunplaced']

theorem AreTail.attributes {attributes : List Attribute} {c : Option Comment} {ns : List Tree}
    (h : AreTail attributes c ns) : ∃ as, Attribute.listOfNodes ns = .ok as ∧
      as.map (·.unplaced) = attributes.map (·.unplaced) := by
  obtain ⟨before, after, rfl, hbefore, hafter⟩ := h
  have hfilter : (before ++ after).filter (·.rule = .fieldAttribute) = before := by
    rw [List.filter_append, List.filter_eq_self.mpr, List.filter_eq_nil_iff.mpr, List.append_nil]
    · intro n hn
      simpa using rule_ne_of_isComment (hafter.isComment n hn)
    · intro n hn
      simpa using rule_of_isFieldAttribute hbefore n hn
  rw [Attribute.listOfNodes, hfilter]
  exact mapM_attributes hbefore

theorem AreTail.comment {attributes : List Attribute} {c : Option Comment} {ns : List Tree}
    (h : AreTail attributes c ns) :
    (Peg.Node.lastComment? ns).map (·.unplaced) = c.map (·.unplaced) := by
  obtain ⟨before, after, rfl, hbefore, hafter⟩ := h
  have hfilter : (before ++ after).filter Peg.Node.isComment = after := by
    rw [List.filter_append, List.filter_eq_nil_iff.mpr, List.filter_eq_self.mpr, List.nil_append]
    · exact hafter.isComment
    · intro n hn hcomment
      exact rule_ne_of_isComment hcomment (rule_of_isFieldAttribute hbefore n hn)
  rw [Peg.Node.lastComment?, hfilter]
  cases c with
  | none =>
    obtain rfl : after = [] := hafter
    rfl
  | some c =>
    obtain ⟨n, rfl, -, hunplaced⟩ := hafter
    exact congrArg some hunplaced

end Pseudonym

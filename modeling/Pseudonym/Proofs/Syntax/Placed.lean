/-
# Where the nodes of a tree stand

A span covers a stretch of text: so many bytes stand before it, and its line is
one more than the number of line feeds there. The span of a node that is read
covers the node's text. The children of a node stand in a row inside its span:
each begins where the one before it has ended, or later.

A comment and an attribute start with their markers, and what follows directly
behind is their first child. The attributes of a field or of a value stand
before its comment.
-/
import Pseudonym.Proofs.Syntax.Shapes

namespace Pseudonym

/-! ### Spans -/

/-- The text has `w` where the span is. -/
def Span.Covers (text : String) (x : Span) (w : String) : Prop :=
  ∃ before after : String, text = before ++ w ++ after ∧ x.start = before.utf8ByteSize ∧
    x.stop = (before ++ w).utf8ByteSize ∧ x.line = 1 + before.toList.count '\n'

namespace Span.Covers

variable {text w : String} {x : Span}

theorem start_le_stop (h : x.Covers text w) : x.start ≤ x.stop := by
  obtain ⟨before, after, -, hstart, hstop, -⟩ := h
  rw [String.utf8ByteSize_append] at hstop
  omega

theorem stop_le (h : x.Covers text w) : x.stop ≤ text.utf8ByteSize := by
  obtain ⟨before, after, rfl, -, hstop, -⟩ := h
  rw [String.utf8ByteSize_append]
  omega

end Span.Covers

theorem Place.offset_origin_advance (w : List Char) :
    (Place.origin.advance w).offset = (String.ofList w).utf8ByteSize := by
  rw [offset_advance, utf8ByteSize_eq_sum, String.toList_ofList]
  exact Nat.zero_add _

theorem Cursor.Past.offset_le {w : List Char} {c c' : Cursor} (h : Past w c c') :
    c.place.offset ≤ c'.place.offset := by
  rw [h.place, Place.offset_advance]
  exact Nat.le_add_right _ _

/-- What is read from a cursor of a text is what the span between the cursors covers. -/
theorem Cursor.Past.covers {text : String} {v w : List Char} {c c' : Cursor}
    (hc : Past v (.ofText text.toList) c) (h : Past w c c') :
    (Span.between c.place c'.place).Covers text (.ofList w) := by
  have htext : text.toList = v ++ (w ++ c'.rest) := by rw [← h.rest, ← hc.rest]; rfl
  have hplace : c.place = Place.origin.advance v := hc.place
  have hplace' : c'.place = Place.origin.advance (v ++ w) := by
    rw [h.place, hplace, Place.advance_append]
  refine ⟨.ofList v, .ofList c'.rest, ?_, ?_, ?_, ?_⟩
  · rw [← String.toList_inj, htext]
    simp
  · rw [← Place.offset_origin_advance, ← hplace]
    rfl
  · rw [← String.ofList_append, ← Place.offset_origin_advance, ← hplace']
    rfl
  · rw [String.toList_ofList]
    exact (congrArg Place.line hplace).trans (Place.line_advance v _)

/-! ### Rows of nodes -/

namespace Peg

variable {R : Type} {g : Grammar R} {lo lo' hi hi' : Nat} {n : Node R} {ns ns' : List (Node R)}

/-- The nodes stand one behind the other between two offsets. -/
def Node.InRow (lo hi : Nat) : List (Node R) → Prop
  | [] => lo ≤ hi
  | n :: rest =>
    lo ≤ n.span.start ∧ n.span.start ≤ n.span.stop ∧ Node.InRow n.span.stop hi rest

namespace Node.InRow

theorem le (h : InRow lo hi ns) : lo ≤ hi := by
  induction ns generalizing lo with
  | nil => exact h
  | cons n ns ih =>
    have hrest := ih h.2.2
    have hstart := h.1
    have hspan := h.2.1
    omega

theorem widen (h : InRow lo hi ns) (hlo : lo' ≤ lo) (hhi : hi ≤ hi') : InRow lo' hi' ns := by
  induction ns generalizing lo lo' with
  | nil => exact Nat.le_trans (Nat.le_trans hlo h) hhi
  | cons n ns ih => exact ⟨Nat.le_trans hlo h.1, h.2.1, ih h.2.2 (Nat.le_refl _)⟩

theorem append {mid : Nat} (h : InRow lo mid ns) (h' : InRow mid hi ns') :
    InRow lo hi (ns ++ ns') := by
  induction ns generalizing lo with
  | nil => exact h'.widen h (Nat.le_refl hi)
  | cons n ns ih => exact ⟨h.1, h.2.1, ih h.2.2⟩

/-- Any offset between the two parts of a row divides it. -/
theorem of_append (h : InRow lo hi (ns ++ ns')) : ∃ mid, InRow lo mid ns ∧ InRow mid hi ns' := by
  induction ns generalizing lo with
  | nil => exact ⟨lo, Nat.le_refl lo, h⟩
  | cons n ns ih =>
    obtain ⟨mid, hns, hns'⟩ := ih h.2.2
    exact ⟨mid, ⟨h.1, h.2.1, hns⟩, hns'⟩

theorem mem (h : InRow lo hi ns) (hn : n ∈ ns) : lo ≤ n.span.start ∧ n.span.stop ≤ hi := by
  obtain ⟨before, after, rfl⟩ := List.append_of_mem hn
  obtain ⟨mid, hbefore, hstart, -, hafter⟩ := h.of_append
  exact ⟨Nat.le_trans hbefore.le hstart, hafter.le⟩

end Node.InRow

/-- What is read leaves nodes in a row between the two cursors. -/
theorem Derives.inRow {m : Mode} {t : Goal R} {c : Cursor} {x : Option (Cursor × List (Node R))}
    (h : Derives g m t c x) : ∀ z ∈ x, Node.InRow c.place.offset z.1.place.offset z.2 := by
  have hskip : ∀ m c, c.place.offset ≤ (g.skip m c).place.offset := by
    intro m c
    obtain ⟨b, hb⟩ := g.past_skip m c
    exact hb.offset_le
  induction h with
  | word hx =>
    rintro z rfl
    obtain ⟨w, hw⟩ := (Derives.word (g := g) (m := .atomic) hx).past _ rfl
    obtain ⟨c', -, rfl⟩ := Option.map_eq_some_iff.mp hx
    exact hw.offset_le
  | one hx =>
    rintro z rfl
    obtain ⟨w, hw⟩ := (Derives.one (g := g) (m := .atomic) hx).past _ rfl
    obtain ⟨c', -, rfl⟩ := Option.map_eq_some_iff.mp hx
    exact hw.offset_le
  | start hx | finish hx =>
    rintro z rfl
    split at hx <;> cases hx
    exact Nat.le_refl _
  | @call m r c x y hbody hx ih =>
    rintro z rfl
    obtain ⟨⟨c₁, ns⟩, rfl, rfl⟩ := Option.map_eq_some_iff.mp hx
    have hle := (ih _ rfl).le
    simp only [Grammar.leave]
    split
    · exact hle
    · exact ⟨Nat.le_refl _, hle, Nat.le_refl _⟩
  | seq _ _ hx ihp ihq =>
    rintro z rfl
    obtain ⟨z', rfl, rfl⟩ := Option.map_eq_some_iff.mp hx
    exact (ihp _ rfl).append ((ihq _ rfl).widen (hskip _ _) (Nat.le_refl _))
  | seqFails | notAheadFails => rintro z ⟨⟩
  | first _ ih | second _ _ _ ih | opt _ ih => exact ih
  | optNone | manyNone | moreNone | notAhead =>
    rintro z ⟨⟩
    exact Nat.le_refl _
  | many _ _ ihp ihmore =>
    rintro z ⟨⟩
    exact (ihp _ rfl).append (ihmore _ rfl)
  | more _ _ ihp ihmore =>
    rintro z ⟨⟩
    exact ((ihp _ rfl).widen (hskip _ _) (Nat.le_refl _)).append (ihmore _ rfl)

end Peg

open Peg

/-! ### Markers and ends of lines -/

/-- Comments and attributes are their markers with what their first child reads behind them, and
attributes may go on. -/
def Peg.Node.Marked (n : Tree) : Prop :=
  match n.rule with
  | .docComment => n.text = "///".toList ++ firstText n.children
  | .lineComment => n.text = "//".toList ++ firstText n.children
  | .fieldAttribute => "@".toList ++ firstText n.children <+: n.text
  | .blockAttribute => "@@".toList ++ firstText n.children <+: n.text
  | _ => True

/-- Attributes, then comments. -/
def Peg.Node.Tail (ns : List Tree) : Prop :=
  ∃ attributes comments, ns = attributes ++ comments ∧
    (∀ n ∈ attributes, n.rule = .fieldAttribute) ∧ ∀ n ∈ comments, n.isComment = true

/-- A node as it is read: it stands in the text where its span is, around its children. -/
structure Peg.Node.Placed (text : String) (n : Tree) : Prop where
  covers : n.span.Covers text n.string
  row : Node.InRow n.span.start n.span.stop n.children
  marked : n.Marked
  leads : n.rule.Leads (n.children.map (·.rule))
  fieldTail : n.rule = .fieldDef → Node.Tail (n.children.drop 2)
  valueTail : n.rule = .enumValue → Node.Tail (n.children.drop 1)

section Nodes

variable {m : Mode} {c c' : Cursor} {w : List Char} {r : Rule} {e : Expr Rule} {ns : List Tree}

/-- A word and what a rule reads directly behind it. -/
theorem past_marked (h : Parses .compact (.call r) c c' ns)
    (hr : (grammar.kind r).outerMode .compact ≠ .atomic) :
    Cursor.Past (Node.firstText ns) c c' := by
  obtain ⟨v, hv⟩ := h.past _ rfl
  obtain ⟨children, -, rfl⟩ := h.of_call_node hr
  rw [Node.firstText, Cursor.textUpTo_of_past hv]
  exact hv

theorem textUpTo_of_comment
    (h : Parses .compact (.seq (.word w) (.call .commentText)) c c' ns) :
    c.textUpTo c' = w ++ Node.firstText ns := by
  obtain ⟨c₁, _, _, hword, htext, rfl⟩ := h.of_seq
  obtain ⟨hw, rfl⟩ := hword.of_word
  exact Cursor.textUpTo_of_past (hw.trans (past_marked htext nofun))

theorem prefix_of_attribute
    (h : Parses .compact (.seq (.word w) (.seq (.call .path) e)) c c' ns) :
    w ++ Node.firstText ns <+: c.textUpTo c' := by
  obtain ⟨c₁, _, _, hword, hrest, rfl⟩ := h.of_seq
  obtain ⟨c₂, _, _, hname, hargs, rfl⟩ := hrest.of_seq
  obtain ⟨hw, rfl⟩ := hword.of_word
  have hpast := past_marked hname nofun
  obtain ⟨children, -, rfl⟩ := hname.of_call_node nofun
  obtain ⟨v, hv⟩ := hargs.past _ rfl
  rw [Cursor.textUpTo_of_past ((hw.trans hpast).trans hv)]
  exact List.prefix_append _ v

theorem marked_of_derives {span : Span}
    (h : Parses ((grammar.kind r).innerMode m) (grammar.body r) c c' ns) :
    Node.Marked ⟨r, span, c.textUpTo c', ns⟩ := by
  cases r with
  | docComment | lineComment => exact textUpTo_of_comment h
  | fieldAttribute | blockAttribute => exact prefix_of_attribute h
  | _ => trivial

theorem tail_of_derives
    (h : Parses m (.seq (.many (.call .fieldAttribute)) Grammar.trailingComment) c c' ns) :
    Node.Tail ns := by
  obtain ⟨c₁, attributes, comments, hattributes, hcomment, rfl⟩ := h.of_seq
  refine ⟨attributes, comments, rfl, ?_, fun n hn => (of_trailing hcomment n hn).1⟩
  exact of_rounds hattributes fun _ _ _ hround => mem_of_single (of_call_rule hround nofun)

/-- Every node that is read from a text is placed in it. -/
theorem placed_of_derives {text : String} {v : List Char}
    (hc : Cursor.Past v (.ofText text.toList) c)
    (h : Parses m e c c' ns) : ∀ n ∈ ns, n.All (Node.Placed text) := by
  refine h.all_nodes_from ?_ hc _ rfl
  intro r m v c c₁ ns hc hm hbody
  obtain ⟨w, hw⟩ := hbody.past _ rfl
  have hcovers := hc.covers hw
  rw [← Cursor.textUpTo_of_past hw] at hcovers
  refine ⟨hcovers, hbody.inRow _ rfl, marked_of_derives hbody, leads_of_derives hm hbody, ?_, ?_⟩
  · rintro rfl
    obtain ⟨c₂, _, _, hname, hrest, rfl⟩ := hbody.of_seq
    obtain ⟨c₃, _, _, htype, htail, rfl⟩ := hrest.of_seq
    obtain ⟨name, rfl, -⟩ := of_call_rule hname hm
    obtain ⟨type, rfl, -⟩ := of_call_rule htype nofun
    exact tail_of_derives htail
  · rintro rfl
    obtain ⟨c₂, _, _, hname, htail, rfl⟩ := hbody.of_seq
    obtain ⟨name, rfl, -⟩ := of_call_rule hname hm
    exact tail_of_derives htail

end Nodes

end Pseudonym

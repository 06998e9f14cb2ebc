/-
# Values that are read

The node that a value leaves is always a value, and a well-spelled one. The
proof is by induction on the text that is left: the values inside a call or an
array stand behind its bracket, so less text is left for them.
-/
import Pseudonym.Proofs.Syntax.Values

namespace Pseudonym

open Peg

variable {m : Mode} {c c' : Cursor} {ns : List Tree} {N : Nat}

/-- A node gives something with this property. -/
def Gives {α : Type} (ofNode : Tree → Except SyntaxError α) (P : α → Prop) (n : Tree) : Prop :=
  ∃ a, ofNode n = .ok a ∧ P a

/-- Wherever less than so much text is left, values are well spelled. -/
def ValuesBelow (N : Nat) : Prop :=
  ∀ c c' ns, c.rest.length < N → Parses .spaced Grammar.value c c' ns →
    Single (Gives Value.ofNode Value.WellSpelled) ns

/-! ### Arguments -/

/-- An argument is well spelled. -/
def Argument.WellSpelled (a : Argument) : Prop :=
  (∀ ident ∈ a.name, isName ident.name.toList = true) ∧ a.value.WellSpelled

theorem of_argument (hvalues : ValuesBelow N) (hc : c.rest.length < N)
    (h : Parses .spaced (.call .argument) c c' ns) :
    Single (fun n => n.rule = .argument ∧ Gives Argument.ofNode Argument.WellSpelled n) ns := by
  obtain ⟨children, hbody, rfl⟩ := h.of_call_node nofun
  refine ⟨_, rfl, rfl, ?_⟩
  rcases hbody.of_alt with hnamed | ⟨-, hvalue⟩
  · obtain ⟨parts, hparts, rfl⟩ := hnamed.of_call_node nofun
    have hparts : Parses .spaced (Grammar.body .namedArgument) c c' parts := hparts
    obtain ⟨c₁, _, _, hname, hrest₁, rfl⟩ := hparts.of_seq
    obtain ⟨c₂, _, _, hcolon, hvalue, rfl⟩ := hrest₁.of_seq
    have hle₁ := hname.length_le
    have hskip₁ := grammar.length_skip_le .spaced c₁
    have hle₂ := hcolon.length_le
    have hskip₂ := grammar.length_skip_le .spaced c₂
    obtain ⟨w, hw, -, name, rfl, hspells⟩ := of_identifier hname nofun
    obtain ⟨-, rfl⟩ := hcolon.of_word
    obtain ⟨value, rfl, v, hv, hspelled⟩ := hvalues _ _ _ (by omega) hvalue
    refine ⟨⟨some name.ident, v, .between c.place c'.place⟩, ?_, ?_, hspelled⟩
    · show Argument.ofNode ⟨_, _, _, [⟨.namedArgument, _, _, [name, value]⟩]⟩ = _
      rw [Argument.ofNode, hv]
      rfl
    · rintro ident ⟨⟩
      rw [Peg.Node.ident, Peg.Node.string, hspells.text, String.toList_ofList]
      exact hw
  · obtain ⟨value, rfl, v, hv, hspelled⟩ := hvalues _ _ _ hc hvalue
    refine ⟨⟨none, v, _⟩, Argument.ofNode_value hv, ?_, hspelled⟩
    rintro ident ⟨⟩

theorem listOfNodes_arguments_wellSpelled : ∀ {ns : List Tree},
    (∀ n ∈ ns, n.rule = .argument ∧ Gives Argument.ofNode Argument.WellSpelled n) →
    ∃ args, Argument.listOfNodes ns = .ok args ∧ Argument.WellSpelledEach args
  | [], _ => ⟨[], by rw [Argument.listOfNodes], by rw [Argument.WellSpelledEach]; trivial⟩
  | n :: ns, h => by
    obtain ⟨hrule, ⟨name, value, span⟩, ha, hname, hvalue⟩ := h n List.mem_cons_self
    obtain ⟨args, hargs, hspelled⟩ := listOfNodes_arguments_wellSpelled fun n' hn' =>
      h n' (List.mem_cons_of_mem n hn')
    refine ⟨⟨name, value, span⟩ :: args, ?_, ?_⟩
    · rw [Argument.listOfNodes, if_pos hrule, ha, hargs]
      rfl
    · rw [Argument.WellSpelledEach]
      exact ⟨hname, hvalue, hspelled⟩

theorem listOfNodes_values_wellSpelled : ∀ {ns : List Tree},
    (∀ n ∈ ns, Gives Value.ofNode Value.WellSpelled n) →
    ∃ vs, Value.listOfNodes ns = .ok vs ∧ Value.WellSpelledEach vs
  | [], _ => ⟨[], by rw [Value.listOfNodes], by rw [Value.WellSpelledEach]; trivial⟩
  | n :: ns, h => by
    obtain ⟨v, hv, hspelled⟩ := h n List.mem_cons_self
    obtain ⟨vs, hvs, hspelled'⟩ := listOfNodes_values_wellSpelled fun n' hn' =>
      h n' (List.mem_cons_of_mem n hn')
    refine ⟨v :: vs, ?_, ?_⟩
    · rw [Value.listOfNodes, hv, hvs]
      rfl
    · rw [Value.WellSpelledEach]
      exact ⟨hspelled, hspelled'⟩

/-- The items between brackets have less text left than the brackets. -/
theorem of_bracketed {item : Expr Rule} {Q : Tree → Prop} {left right : String}
    (hleft : left.toList ≠ []) (hc : c.rest.length ≤ N)
    (h : Parses .spaced (Grammar.all (Grammar.lit left)
      [Grammar.newlines, Grammar.items item, Grammar.lit right]) c c' ns)
    (hitem : ∀ c c' ns, c.rest.length < N →
      Parses .spaced item c c' ns → Single Q ns) :
    ∀ n ∈ ns, Q n := by
  obtain ⟨c₁, _, _, hopen, hrest₁, rfl⟩ := h.of_seq
  obtain ⟨c₂, _, _, hlines, hrest₂, rfl⟩ := hrest₁.of_seq
  obtain ⟨c₃, _, _, hitems, hclose, rfl⟩ := hrest₂.of_seq
  have hskip₁ := grammar.length_skip_le .spaced c₁
  have hle₂ := hlines.length_le
  have hskip₂ := grammar.length_skip_le .spaced c₂
  obtain ⟨hpast, rfl⟩ := hopen.of_word
  have hlen := hpast.length
  have hpos : 0 < left.toList.length := List.length_pos_iff.mpr hleft
  obtain rfl := of_newlines hlines
  obtain ⟨-, rfl⟩ := hclose.of_word
  intro n hn
  refine of_items hitems (fun c₁ c₂ ns hle => hitem c₁ c₂ ns (by omega)) n ?_
  simpa using hn

/-- Arguments that are read are well spelled. -/
theorem of_arguments (hvalues : ValuesBelow N) (hc : c.rest.length ≤ N)
    (h : Parses m (.call .arguments) c c' ns) :
    Single (Gives Argument.listOfNode Argument.WellSpelledEach) ns := by
  obtain ⟨children, hbody, rfl⟩ := h.of_call_node nofun
  have hargs := of_bracketed (by decide) hc hbody fun c c' ns hc => of_argument hvalues hc
  obtain ⟨args, hargs, hspelled⟩ := listOfNodes_arguments_wellSpelled hargs
  exact ⟨_, rfl, args, by rw [Argument.listOfNode, hargs], hspelled⟩

/-! ### Values -/

theorem gives_string (h : Parses .spaced (.call .stringLiteral) c c' ns) :
    Single (Gives Value.ofNode Value.WellSpelled) ns := by
  obtain ⟨w, hw, ⟨rule, span, chars, children⟩, rfl, rfl, content, rfl, -, rfl⟩ := of_string h
  refine ⟨_, rfl, .string (.ofList content.text), ?_, ?_⟩
  · rw [Value.ofNode, Peg.Node.firstText]
  · rw [Value.WellSpelled, String.toList_ofList]
    exact hw

theorem gives_number (h : Parses .spaced (.call .number) c c' ns) :
    Single (Gives Value.ofNode Value.WellSpelled) ns := by
  obtain ⟨w, hw, -, ⟨rule, span, chars, children⟩, rfl, rfl, rfl⟩ := of_number h nofun
  refine ⟨_, rfl, .ofNumeral chars, by rw [Value.ofNode], ?_⟩
  dsimp only at hw
  rw [Value.ofNumeral]
  cases hwhole : (wholeNumber? chars).bind int64? with
  | some n =>
    rw [Value.WellSpelled]
    trivial
  | none =>
    rw [Value.WellSpelled, String.toList_ofList]
    exact ⟨hw, hwhole⟩

theorem gives_boolean (h : Parses .spaced (.call .boolean) c c' ns) :
    Single (Gives Value.ofNode Value.WellSpelled) ns := by
  obtain ⟨truth, -, ⟨rule, span, chars, children⟩, rfl, rfl, -⟩ := of_boolean h nofun
  refine ⟨_, rfl, .boolean _, by rw [Value.ofNode], ?_⟩
  rw [Value.WellSpelled]
  trivial

/-- A path that is read as a value does not start with a truth value. -/
theorem ne_truthWord_of_refused {first : List Char} {rest : List (List Char)} (truth : Bool)
    (hpast : Cursor.Past (['.'].intercalate (first :: rest)) c c') (hends : EndsName c'.rest)
    (hnone : Derives grammar .spaced (.expr (.call .boolean)) c none) :
    first ≠ truthWord truth := by
  rintro rfl
  rw [intercalate_cons] at hpast
  have hends' : EndsName ((rest.map (['.'] ++ ·)).flatten ++ c'.rest) := by
    cases rest with
    | nil => exact hends
    | cons second rest =>
      intro x hx
      cases hx
      rfl
  obtain ⟨s, text⟩ := c
  have hrest := hpast.rest
  rw [List.append_assoc] at hrest
  obtain ⟨c₁, ns₁, hsome, -⟩ := reads_boolean (m := .spaced) (l := .spaced) truth hends' nofun s
  have hsolid : Solid (truthWord truth) := by
    cases truth with
    | true => exact ⟨'t', _, rfl, rfl⟩
    | false => exact ⟨'f', _, rfl, rfl⟩
  rw [Grammar.skip_of_flush (hsolid.append _).flush, ← hrest] at hsome
  cases hnone.unique hsome

theorem gives_path (h : Parses .spaced (.call .path) c c' ns)
    (hnone : Derives grammar .spaced (.expr (.call .boolean)) c none) :
    Single (Gives Value.ofNode Value.WellSpelled) ns := by
  obtain ⟨hends, w, ⟨names, hne, hnames, rfl⟩, hpast, ⟨rule, span, chars, children⟩, rfl, rfl, rfl⟩ :=
    of_path h nofun
  refine ⟨_, rfl, .path (names.map String.ofList), ?_, ?_⟩
  · rw [Value.ofNode, List.splitOn_intercalate '.' (fun name hname =>
      not_mem_of_isName (hnames name hname)) hne]
  · rw [Value.WellSpelled]
    refine ⟨?_, ?_⟩
    · intro name hname
      obtain ⟨w, hw, rfl⟩ := List.mem_map.mp hname
      rw [String.toList_ofList]
      exact hnames w hw
    · cases names with
      | nil => exact absurd rfl hne
      | cons first rest =>
        refine ⟨.ofList first, rfl, ?_, ?_⟩
        · intro heq
          refine ne_truthWord_of_refused true hpast hends hnone ?_
          rw [← String.toList_ofList (l := first), heq]
          rfl
        · intro heq
          refine ne_truthWord_of_refused false hpast hends hnone ?_
          rw [← String.toList_ofList (l := first), heq]
          rfl

theorem gives_call (hvalues : ValuesBelow c.rest.length)
    (h : Parses .spaced (.call .functionCall) c c' ns) :
    Single (Gives Value.ofNode Value.WellSpelled) ns := by
  obtain ⟨children, hbody, rfl⟩ := h.of_call_node nofun
  obtain ⟨c₁, _, _, hname, hargs, rfl⟩ := hbody.of_seq
  have hle := hname.length_le
  obtain ⟨-, w, hw, -, name, rfl, hspells⟩ := of_path hname nofun
  obtain ⟨list, rfl, args, hargs, hspelled⟩ := of_arguments hvalues hle hargs
  refine ⟨_, rfl, .call name.string args, ?_, ?_⟩
  · show Value.ofNode ⟨.functionCall, _, _, [name, list]⟩ = _
    rw [Value.ofNode, hargs]
    rfl
  · rw [Value.WellSpelled, Peg.Node.string, hspells.text, String.toList_ofList]
    exact ⟨hw, hspelled⟩

theorem gives_array (hvalues : ValuesBelow c.rest.length)
    (h : Parses .spaced (.call .array) c c' ns) :
    Single (Gives Value.ofNode Value.WellSpelled) ns := by
  obtain ⟨children, hbody, rfl⟩ := h.of_call_node nofun
  have hitems := of_bracketed (by decide) (Nat.le_refl _) hbody hvalues
  obtain ⟨vs, hvs, hspelled⟩ := listOfNodes_values_wellSpelled hitems
  refine ⟨_, rfl, .array vs, ?_, ?_⟩
  · rw [Value.ofNode, hvs]
    rfl
  · rw [Value.WellSpelled]
    exact hspelled

/-- Values that are read are well spelled, if those with less text left are. -/
theorem of_value_step (hvalues : ValuesBelow c.rest.length)
    (h : Parses .spaced Grammar.value c c' ns) :
    Single (Gives Value.ofNode Value.WellSpelled) ns := by
  rcases h.of_alt with hcall | ⟨-, h⟩
  · exact gives_call hvalues hcall
  rcases h.of_alt with harray | ⟨-, h⟩
  · exact gives_array hvalues harray
  rcases h.of_alt with hstring | ⟨-, h⟩
  · exact gives_string hstring
  rcases h.of_alt with hnumber | ⟨-, h⟩
  · exact gives_number hnumber
  rcases h.of_alt with hboolean | ⟨hnone, hpath⟩
  · exact gives_boolean hboolean
  · exact gives_path hpath hnone

/-- Values that are read are well spelled. -/
theorem valuesBelow : ∀ N, ValuesBelow N
  | 0 => fun _ _ _ hc _ => absurd hc (Nat.not_lt_zero _)
  | N + 1 => fun c _ _ hc h => by
    have ih := valuesBelow N
    refine of_value_step (fun c₁ c₂ ns hc₁ => ih c₁ c₂ ns ?_) h
    omega

theorem of_value (h : Parses .spaced Grammar.value c c' ns) :
    Single (Gives Value.ofNode Value.WellSpelled) ns :=
  of_value_step (valuesBelow _) h

end Pseudonym

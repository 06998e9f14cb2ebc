/-
# Strings are read back

The text of a string is kept as it is written, escapes included, and written
again between quotes. This is read back exactly if the text is made of units: a
backslash with any character behind it, or a single character that is neither a
quote nor a backslash nor the end of a line. So a text may end in a backslash
only if that one is escaped, and a line may end inside a string only behind a
backslash.

What follows the closing quote does not matter. Every string of a schema that
is read has such a text.

Key definitions: `InUnits`.
-/
import Pseudonym.Proofs.Syntax.Accounted
import Pseudonym.Proofs.Syntax.Values

namespace Pseudonym

open Peg

variable {w k : List Char} {n : Tree}

/-! ### Units -/

/-- A text made of escaped characters and of characters that stand for themselves. A carriage return
does so, unless a line feed makes it the end of a line. -/
inductive InUnits : List Char → Prop
  | nil : InUnits []
  | escaped {x : Char} {rest : List Char} (h : InUnits rest) : InUnits ('\\' :: x :: rest)
  | single {x : Char} {rest : List Char} (hquote : x ≠ '"') (hback : x ≠ '\\') (hline : x ≠ '\n')
    (hreturn : ¬ (x = '\r' ∧ rest.head? = some '\n')) (h : InUnits rest) : InUnits (x :: rest)

/-- No unit starts with a line feed. -/
theorem InUnits.head_ne (h : InUnits w) : w.head? ≠ some '\n' := by
  cases h with
  | nil => nofun
  | escaped => nofun
  | single _ _ hline _ _ =>
    intro hhead
    exact hline (Option.some.inj hhead)

/-- The units of a text one by one are the units of a string. -/
theorem inUnits_iff_isContent : InUnits w ↔ IsContent w := by
  constructor
  · intro h
    induction h with
    | nil => exact ⟨[], nofun, rfl⟩
    | @escaped x rest _ ih =>
      obtain ⟨units, hunits, rfl⟩ := ih
      refine ⟨['\\', x] :: units, ?_, rfl⟩
      exact List.forall_mem_cons.mpr ⟨.inl ⟨x, rfl⟩, hunits⟩
    | @single x rest hquote hback hline _ _ ih =>
      obtain ⟨units, hunits, rfl⟩ := ih
      refine ⟨[x] :: units, ?_, rfl⟩
      exact List.forall_mem_cons.mpr ⟨.inr ⟨x, rfl, hquote, hback, hline⟩, hunits⟩
  · rintro ⟨units, hunits, rfl⟩
    induction units with
    | nil => exact .nil
    | cons u units ih =>
      obtain ⟨hu, hunits⟩ := List.forall_mem_cons.mp hunits
      have hrest := ih hunits
      rcases hu with ⟨x, rfl⟩ | ⟨x, rfl, hquote, hback, hline⟩
      · exact .escaped hrest
      · exact .single hquote hback hline (fun h => hrest.head_ne h.2) hrest

/-! ### Readings -/

/-- The text of a string that is read is made of units. -/
theorem inUnits_of_formed (h : n.All Node.Formed) (hrule : n.rule = .stringLiteral) :
    InUnits (Node.firstText n.children) := by
  obtain ⟨content, hcontent, hcrule⟩ := h.consists hrule
  have hformed := h.of_children hcontent content List.mem_cons_self
  rw [hcontent]
  exact inUnits_iff_isContent.mpr (hformed.spells hcrule)

/-- A text in units is read between quotes, whatever follows. -/
theorem derives_quoted (hw : InUnits w) (k : List Char) :
    ∃ n : Tree, Parses .spaced (.call .stringLiteral) (.ofText ('"' :: (w ++ ['"']) ++ k))
      ⟨Place.origin.advance ('"' :: (w ++ ['"'])), k⟩ [n] ∧ IsLiteral w n := by
  obtain ⟨c, ns, hread, hc, n, rfl, hn⟩ := reads_string (m := .spaced) (l := .atomic)
    (inUnits_iff_isContent.mp hw) k .origin
  obtain rfl : c = ⟨Place.origin.advance ('"' :: (w ++ ['"'])), k⟩ := hc
  exact ⟨n, hread, hn⟩

/-- Exactly the texts in units are read between quotes as they are. -/
theorem read_string_iff (w k : List Char) :
    (∃ n content : Tree, (grammar.read .stringLiteral ('"' :: (w ++ ['"']) ++ k)).result =
        some (⟨Place.origin.advance ('"' :: (w ++ ['"'])), k⟩, [n]) ∧
      n.children = [content] ∧ content.text = w) ↔ InUnits w := by
  have hread := Layering.read_derives survey.toLayering .stringLiteral ('"' :: (w ++ ['"']) ++ k)
  constructor
  · rintro ⟨n, content, hresult, hchildren, rfl⟩
    rw [hresult] at hread
    have hformed := formed_of_derives hread n List.mem_cons_self
    have hrule := mem_of_single (of_call_rule hread nofun) n List.mem_cons_self
    have hunits := inUnits_of_formed hformed hrule
    rw [hchildren] at hunits
    exact hunits
  · intro hw
    obtain ⟨n, hderives, -, content, hchildren, -, htext⟩ := derives_quoted hw k
    exact ⟨n, content, hread.unique hderives, hchildren, htext⟩

/-- Only strings are parts with a text. -/
theorem Peg.Node.rule_of_string {text : String} (h : n.part? = some (.string text)) :
    n.rule = .stringLiteral ∧ .ofList (firstText n.children) = text := by
  obtain ⟨rule, span, w, children⟩ := n
  cases rule with
  | stringLiteral =>
    cases h
    exact ⟨rfl, rfl⟩
  | _ => cases h

/-- Every string among the parts of a tree has a text in units. -/
theorem inUnits_of_mem_parts {text : String} (h : n.All Node.Formed)
    (hmem : Part.string text ∈ n.parts) : InUnits text.toList := by
  obtain ⟨n', hn', hpart⟩ := List.mem_filterMap.mp hmem
  obtain ⟨hrule, rfl⟩ := Node.rule_of_string hpart
  rw [String.toList_ofList]
  exact inUnits_of_formed (Node.All.of_mem_nodes n h n' hn') hrule

/-- Exactly the strings with a text in units are read back as they are written. -/
theorem Value.read?_string_iff (text : String) (k : List Char) :
    Value.read? ((Value.string text).render.toList ++ k) = some (.string text, k) ↔
      InUnits text.toList := by
  rw [Value.toList_render_string]
  constructor
  · intro h
    obtain ⟨c, n, ns, hderives, hn, -⟩ := Value.derives_of_read? h
    have hformed := formed_of_derives hderives n List.mem_cons_self
    refine inUnits_of_mem_parts hformed ?_
    rw [Value.parts_ofNode n hformed _ hn, Value.parts]
    exact List.mem_cons_self
  · intro hw
    obtain ⟨⟨rule, span, w, children⟩, hderives, hrule, content, hchildren, -, htext⟩ :=
      derives_quoted hw k
    obtain rfl : rule = .stringLiteral := hrule
    obtain rfl : children = [content] := hchildren
    refine Value.read?_of_derives (derives_value_of_string hderives) ?_
    rw [Value.ofNode, Node.firstText, htext, String.ofList_toList]

/-- **Strings are read back.** The rule for strings reads a text between quotes, in front of any
other text, as this text exactly if it is made of units: a backslash with any character behind it,
or a character that is not a quote, a backslash or the end of a line. So a string that is written is
read back as it is exactly if its text is made of units. Every string of a schema that is read has
such a text. -/
theorem string_relexed :
    (∀ w k : List Char,
      (∃ n content : Tree, (grammar.read .stringLiteral ('"' :: (w ++ ['"']) ++ k)).result =
          some (⟨Place.origin.advance ('"' :: (w ++ ['"'])), k⟩, [n]) ∧
        n.children = [content] ∧ content.text = w) ↔ InUnits w) ∧
    (∀ (text : String) (k : List Char),
      Value.read? ((Value.string text).render.toList ++ k) = some (.string text, k) ↔
        InUnits text.toList) ∧
    ∀ (source text : String) (s : Schema), Schema.parse source = .ok s →
      Part.string text ∈ s.parts → InUnits text.toList := by
  refine ⟨read_string_iff, Value.read?_string_iff, ?_⟩
  intro source text s hs hmem
  rcases Schema.parse_derives source with ⟨-, a, herror⟩ | ⟨c, n, s', -, hformed, -, hok, hparts⟩
  · rw [herror] at hs
    cases hs
  · obtain rfl := Except.ok.inj (hok.symm.trans hs)
    rw [← hparts] at hmem
    exact inUnits_of_mem_parts hformed hmem

/-- An escaped backslash, an escaped quote, an escaped line feed, and a carriage return. -/
def brittle : String := "\\\\\\\"\\\n\r"

/-- A schema with this text in a string. -/
def brittleSchema : String := "model M \x7b\n  a Unsupported(\"" ++ brittle ++ "\")\n\x7d"

theorem string_relexed_brittle :
    ∃ s, Schema.parse brittleSchema = .ok s ∧ Part.string brittle ∈ s.parts ∧
      InUnits brittle.toList ∧
      Value.read? ((Value.string brittle).render.toList ++ ['\n']) = some (.string brittle, ['\n']) := by
  have hparts : (Schema.parse brittleSchema).toOption.map
      (fun s => decide (Part.string brittle ∈ s.parts)) = some true := by decide +kernel
  cases hs : Schema.parse brittleSchema with
  | error e =>
    rw [hs] at hparts
    cases hparts
  | ok s =>
    rw [hs] at hparts
    have hmem : Part.string brittle ∈ s.parts := of_decide_eq_true (Option.some.inj hparts)
    have hunits := string_relexed.2.2 brittleSchema brittle s hs hmem
    exact ⟨s, rfl, hmem, hunits, (string_relexed.2.1 brittle ['\n']).mpr hunits⟩

end Pseudonym

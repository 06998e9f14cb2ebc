/-
# Comments

A comment goes up to the end of its line. Its text has no white space at its
ends, so one space between the marker and the text is read as no part of it,
and a comment that is written before the end of a line is read as it was.
-/
import Pseudonym.Proofs.Schema.Tidied
import Pseudonym.Proofs.Syntax.Literals
import Pseudonym.Schema.Printer

namespace Pseudonym

open Peg

variable {m l : Mode} {w k : List Char} {c c' : Cursor} {ns : List (Node Rule)}

/-! ### White space at the ends -/

/-- A text without white space at its ends. -/
def Trimmed (w : List Char) : Prop :=
  (∀ x ∈ w.head?, isBlank x = false) ∧ ∀ x ∈ w.getLast?, isBlank x = false

theorem dropWhile_isBlank (hw : ∀ x ∈ w.head?, isBlank x = false) : w.dropWhile isBlank = w := by
  cases w with
  | nil => rfl
  | cons x w =>
    have hx := hw x rfl
    simp [hx]

theorem trimBlanks_of_trimmed (hw : Trimmed w) : trimBlanks w = w := by
  obtain ⟨hhead, hlast⟩ := hw
  rw [← List.head?_reverse] at hlast
  rw [trimBlanks, dropWhile_isBlank hhead, dropWhile_isBlank hlast, List.reverse_reverse]

theorem trimmed_trimBlanks (w : List Char) : Trimmed (trimBlanks w) := by
  have hdrop : ∀ v : List Char, ∀ x ∈ (v.dropWhile isBlank).head?, isBlank x = false := by
    intro v x hx
    have hnot := List.head?_dropWhile_not isBlank v
    rw [hx] at hnot
    simpa using hnot
  constructor
  · -- What is left of the end keeps its first character.
    obtain ⟨v, hv⟩ : trimBlanks w <+: w.dropWhile isBlank := by
      rw [← List.reverse_suffix, trimBlanks, List.reverse_reverse]
      exact List.dropWhile_suffix isBlank
    intro x hx
    obtain ⟨t, ht⟩ : ∃ t, trimBlanks w = x :: t := by
      cases htrim : trimBlanks w with
      | nil =>
        rw [htrim] at hx
        cases hx
      | cons y t =>
        rw [htrim] at hx
        cases hx
        exact ⟨t, rfl⟩
    exact hdrop w x (by rw [← hv, ht]; rfl)
  · rw [trimBlanks, List.getLast?_reverse]
    exact hdrop _

theorem mem_of_mem_trimBlanks {x : Char} (hx : x ∈ trimBlanks w) : x ∈ w := by
  have hx := (List.dropWhile_sublist isBlank).mem (List.mem_reverse.mp hx)
  exact (List.dropWhile_sublist isBlank).mem (List.mem_reverse.mp hx)

/-! ### The text of a comment -/

/-- One character of a comment. -/
def commentChar : Expr Rule := Grammar.all (.notAhead Grammar.newline) [.one .any]

theorem reads_newline (k : List Char) (hm : m = .spaced → grammar.Flush ('\n' :: k)) :
    Reads grammar m l Grammar.newline ['\n'] k Silent :=
  .second (.word (by rintro ⟨v, hv⟩; cases hv) hm) (.word hm)

theorem reads_commentText (hw : '\n' ∉ w) (hlast : w.getLast? ≠ some '\r') (k : List Char) :
    Reads grammar .compact .compact (.call .commentText) w ('\n' :: k)
      (Single (Node.Spells .commentText w)) := by
  have hflat : (w.map fun x => [x]).flatten = w := List.flatMap_singleton' w
  have hrounds : Reads grammar .atomic .atomic (.many commentChar) w ('\n' :: k) Silent := by
    rw [← hflat]
    refine (ReadsMore.silent ?_ _ ?_).many
    · exact .seq_first (Refuses.notAhead (w := ['\n']) (l := .atomic) (reads_newline k nofun))
    · intro before u after hu
      obtain ⟨before', tail, rfl, -, htail⟩ := List.map_eq_append_iff.mp hu
      obtain ⟨x, after', rfl, rfl, rfl⟩ := List.map_eq_cons_iff.mp htail
      have hx : x ≠ '\n' := by
        rintro rfl
        exact hw (List.mem_append_right _ List.mem_cons_self)
      refine Reads.silent_then (w := []) (.notAhead (.alt (.word ?_ nofun) (.word ?_ nofun)))
        (.one rfl nofun)
      · rintro ⟨v, hv⟩
        have hv : ['\r', '\n'] ++ v = x :: ((after'.map fun x => [x]).flatten ++ '\n' :: k) := hv
        obtain ⟨rfl, hv⟩ := List.cons.inj hv
        -- A line feed behind the carriage return is one of the text, or ends the line.
        cases after' with
        | nil => exact hlast (by simp)
        | cons y after' =>
          cases hv
          exact hw (List.mem_append_right _ (List.mem_cons_of_mem _ List.mem_cons_self))
      · rintro ⟨v, hv⟩
        have hv : ['\n'] ++ v = x :: ((after'.map fun x => [x]).flatten ++ '\n' :: k) := hv
        exact hx (List.cons.inj hv).1.symm
  exact .token hrounds (fun h => by rcases h with h | h <;> cases h) nofun

theorem of_commentText (h : Parses .compact (.call .commentText) c c' ns) :
    ∃ w, '\n' ∉ w ∧ Single (Node.Spells .commentText w) ns := by
  obtain ⟨_, hrounds, rfl⟩ := h.of_call_node nofun
  have hw : ∃ w, '\n' ∉ w ∧ Cursor.Past w c c' := by
    refine hrounds.of_many (fun c₁ _ => ∃ w, '\n' ∉ w ∧ Cursor.Past w c c₁)
      ⟨[], List.not_mem_nil, .refl c⟩ ?_
    rintro c₁ _ c₀ c₂ _ ⟨w, hw, hpast⟩ hc₀ hround
    obtain rfl : c₀ = c₁ := hc₀.elim id id
    obtain ⟨c₃, _, _, hahead, hany, -⟩ := hround.of_seq
    obtain ⟨hnone, rfl, -⟩ := hahead.of_notAhead
    obtain ⟨x, -, hpast', -⟩ := hany.of_one
    obtain ⟨-, hline⟩ := hnone.of_alt_none
    have hx : '\n' ≠ x := by
      rintro rfl
      exact hline.of_word_none ⟨c₂.rest, hpast'.rest.symm⟩
    exact ⟨w ++ [x], by simp [hw, hx], hpast.trans hpast'⟩
  obtain ⟨w, hw, hpast⟩ := hw
  exact ⟨w, hw, _, rfl, rfl, Cursor.textUpTo_of_past hpast⟩

/-! ### Comments -/

/-- A comment as it is read: one line, without white space at its ends. -/
def Comment.WellSpelled (c : Comment) : Prop := Trimmed c.text.toList ∧ '\n' ∉ c.text.toList

/-- A node that is a comment, up to its place. -/
def IsComment (c : Comment) (n : Tree) : Prop := n.isComment = true ∧ n.comment.unplaced = c.unplaced

/-- What stands behind the marker of a comment. -/
def Comment.tail (c : Comment) : List Char := if c.isEmpty then [] else ' ' :: c.text.toList

theorem Comment.toList_render (c : Comment) :
    c.render.toList = c.kind.marker.toList ++ c.tail := by
  rw [render, tail]
  cases c.isEmpty with
  | true => simp
  | false => simp [String.toList_append]

theorem Comment.solid_render (c : Comment) : Solid c.render.toList := by
  rw [Comment.toList_render]
  cases c.kind with
  | doc => exact ⟨'/', _, rfl, rfl⟩
  | line => exact ⟨'/', _, rfl, rfl⟩

theorem Comment.trimBlanks_tail {c : Comment} (hc : c.WellSpelled) :
    trimBlanks c.tail = c.text.toList := by
  rw [tail]
  cases hempty : c.isEmpty with
  | true =>
    have htext : c.text = "" := String.isEmpty_iff.mp hempty
    rw [if_pos rfl, htext]
    rfl
  | false =>
    have hdrop : trimBlanks (' ' :: c.text.toList) = trimBlanks c.text.toList := rfl
    rw [if_neg Bool.false_ne_true, hdrop, trimBlanks_of_trimmed hc.1]

theorem Comment.tail_cases (c : Comment) :
    c.isEmpty = true ∧ c.tail = [] ∨ c.isEmpty = false ∧ c.tail = ' ' :: c.text.toList := by
  cases hempty : c.isEmpty with
  | true => exact .inl ⟨rfl, by rw [tail, hempty]; rfl⟩
  | false => exact .inr ⟨rfl, by rw [tail, hempty]; rfl⟩

theorem Comment.reads_tail {c : Comment} (hc : c.WellSpelled) (k : List Char) :
    Reads grammar .compact .compact (.call .commentText) c.tail ('\n' :: k)
      (Single (Node.Spells .commentText c.tail)) := by
  refine reads_commentText ?_ ?_ k
  · rcases c.tail_cases with ⟨-, htail⟩ | ⟨-, htail⟩ <;> rw [htail]
    · exact List.not_mem_nil
    · intro hmem
      rcases List.mem_cons.mp hmem with h | h
      · cases h
      · exact hc.2 h
  · rcases c.tail_cases with ⟨-, htail⟩ | ⟨hempty, htail⟩ <;> rw [htail]
    · nofun
    · intro hlast
      cases htext : c.text.toList with
      | nil =>
        rw [Comment.isEmpty, String.toList_eq_nil_iff.mp htext] at hempty
        cases hempty
      | cons x v =>
        rw [htext, List.getLast?_cons_cons, ← htext] at hlast
        have hblank := hc.1.2 '\r' hlast
        cases hblank

/-- Every comment is read, up to the end of its line. -/
theorem Comment.reads {c : Comment} (hc : c.WellSpelled) (k : List Char) :
    Reads grammar m l Grammar.comment c.render.toList ('\n' :: k) (Single (IsComment c)) := by
  have htext := Comment.trimBlanks_tail hc
  -- The node of either rule is the comment, given its kind.
  have hnode : ∀ (r : Rule) (n : Tree), (if r = .docComment then .doc else .line) = c.kind →
      (r = .docComment ∨ r = .lineComment) →
      n.rule = r ∧ Single (Node.Spells .commentText c.tail) n.children → IsComment c n := by
    rintro r n hkind hr ⟨rfl, text, hchildren, -, htail⟩
    refine ⟨?_, ?_⟩
    · rcases hr with hr | hr <;> rw [Peg.Node.isComment, hr] <;> rfl
    · rw [Comment.unplaced, Comment.unplaced, Peg.Node.comment, hchildren, Peg.Node.firstText, htail,
        htext, String.ofList_toList, hkind]
  have hbody : ∀ marker : String, Reads grammar .compact .atomic
      (Grammar.all (Grammar.lit marker) [.call .commentText]) (marker.toList ++ c.tail) ('\n' :: k)
      (Single (Node.Spells .commentText c.tail)) := fun marker =>
    Reads.silent_then (.word nofun) (Comment.reads_tail hc k)
  rw [Comment.toList_render]
  cases hkind : c.kind with
  | doc =>
    have hcall : Reads grammar m l (.call .docComment) ("///".toList ++ c.tail) ('\n' :: k) _ :=
      .call ((hbody "///").relax l) (fun _ => Solid.flush ⟨'/', _, rfl, rfl⟩) nofun
    exact .first (hcall.mono fun _ ⟨n, hns, hn⟩ =>
      ⟨n, hns, hnode .docComment n hkind.symm (.inl rfl) hn⟩)
  | line =>
    have hcall : Reads grammar m l (.call .lineComment) ("//".toList ++ c.tail) ('\n' :: k) _ :=
      .call ((hbody "//").relax l) (fun _ => Solid.flush ⟨'/', _, rfl, rfl⟩) nofun
    refine .second (.call (.seq_first (.word ?_ nofun)) fun _ => Solid.flush ⟨'/', _, rfl, rfl⟩)
      (hcall.mono fun _ ⟨n, hns, hn⟩ =>
        ⟨n, hns, hnode .lineComment n hkind.symm (.inr rfl) hn⟩)
    -- No third slash follows the marker.
    rcases c.tail_cases with ⟨-, htail⟩ | ⟨-, htail⟩ <;> rw [htail] <;> rintro ⟨v, hv⟩ <;> cases hv

/-- Only comments are read. -/
theorem of_comment (h : Parses m Grammar.comment c c' ns) :
    Single (fun n => n.isComment = true ∧ n.comment.WellSpelled) ns := by
  have hnode : ∀ (r : Rule) (n : Tree) (w : List Char), '\n' ∉ w →
      (r = .docComment ∨ r = .lineComment) → n.rule = r →
      Single (Node.Spells .commentText w) n.children →
      n.isComment = true ∧ n.comment.WellSpelled := by
    rintro r n w hw hr rfl ⟨text, hchildren, -, rfl⟩
    refine ⟨?_, ?_⟩
    · rcases hr with hr | hr <;> rw [Peg.Node.isComment, hr] <;> rfl
    · rw [Comment.WellSpelled, Peg.Node.comment, hchildren, Peg.Node.firstText, String.toList_ofList]
      exact ⟨trimmed_trimBlanks _, fun hmem => hw (mem_of_mem_trimBlanks hmem)⟩
  rcases h.of_alt with hdoc | ⟨-, hline⟩
  · obtain ⟨_, hbody, rfl⟩ := hdoc.of_call_node nofun
    obtain ⟨c₁, _, _, hmarker, htext, rfl⟩ := hbody.of_seq
    obtain ⟨-, rfl⟩ := hmarker.of_word
    obtain ⟨w, hw, hns⟩ := of_commentText htext
    exact ⟨_, rfl, hnode .docComment _ w hw (.inl rfl) rfl hns⟩
  · obtain ⟨_, hbody, rfl⟩ := hline.of_call_node nofun
    obtain ⟨c₁, _, _, hmarker, htext, rfl⟩ := hbody.of_seq
    obtain ⟨-, rfl⟩ := hmarker.of_word
    obtain ⟨w, hw, hns⟩ := of_commentText htext
    exact ⟨_, rfl, hnode .lineComment _ w hw (.inr rfl) rfl hns⟩

end Pseudonym

/-
# Every failure is located

A text that cannot be obfuscated fails on a line of its own. If the text is no
schema, the line is that of the furthest place at which a rule was attempted:
reading never leaves the text, and neither do the attempts. If the text is a
schema, the failure is at one of its parts that is to blame, and the line is
that on which this part begins in the text, which the message names.

Key definitions: `Place.In`, `Accord.inText`, `Failure.FoundOn`.
-/
import Pseudonym.Proofs.Obfuscate.FaultLines
import Pseudonym.Proofs.Syntax.Closing
import Pseudonym.Proofs.Syntax.Faithful

namespace Pseudonym

open Peg

/-! ### Syntax errors -/

/-- The place behind some part of a text that starts it. -/
def Place.In (text : List Char) (p : Place) : Prop :=
  ∃ before after, text = before ++ after ∧ p = Place.origin.advance before

theorem Cursor.Past.place_in {text w : List Char} {c : Cursor} (h : Past w (.ofText text) c) :
    c.place.In text := ⟨w, c.rest, h.rest, h.place⟩

namespace Peg

variable {R : Type} {g : Grammar R}

/-- Attempts at places in a text. -/
def Matching.inText (text : List Char) : Matching R := ⟨fun a _ => a.place.In text, fun _ _ => True⟩

/-- Every expression is built of words, characters, ends of the text and calls. -/
theorem Expr.over_isTerminal (e : Expr R) : e.over Expr.isTerminal (fun _ => true) = true := by
  induction e with
  | word | one | start | finish => rfl
  | call r => exact Bool.or_true _
  | seq p q ihp ihq | alt p q ihp ihq => rw [Expr.over, ihp, ihq]; rfl
  | opt p ih | many p ih | notAhead p ih => rw [Expr.over, ih, Bool.or_true]

/-- A reading of a text, beside itself: it stays in the text, and what it attempts does. -/
def Accord.inText (g : Grammar R) (text : List Char) : Accord g (.inText text)
    (fun c c' => c' = c ∧ ∃ w, Cursor.Past w (.ofText text) c) where
  atom _ e := e.isTerminal
  calls _ := true
  skip m c c' h := by
    obtain ⟨rfl, w, hw⟩ := h
    obtain ⟨b, hb⟩ := g.past_skip m c'
    exact ⟨rfl, _, hw.trans hb⟩
  record r _ c c' h a a' e e' negative ha _ := by
    obtain ⟨rfl, w, hw⟩ := h
    show (a.record e r c'.place negative).place.In text
    rcases Attempts.place_record a e r c'.place negative with hplace | hplace
    · rw [hplace]
      exact ha
    · rw [hplace]
      exact hw.place_in
  node _ _ _ _ _ _ _ _ _ _ _ _ _ _ _ _ _ := trivial
  bodies _ _ _ := Expr.over_isTerminal _
  atoms m e he l c c' h := by
    obtain ⟨rfl, v, hv⟩ := h
    have hpast : ∀ w k, c'.rest = w ++ k → ∃ u, Cursor.Past u (.ofText text) ⟨c'.place.advance w, k⟩ :=
      fun w k hk => ⟨v ++ w, hv.trans ⟨hk, rfl⟩⟩
    cases e with
    | word w => exact .word id fun k hk => ⟨k, hk, rfl, hpast w k hk⟩
    | one cls =>
      exact .one (fun x k hk hx => ⟨x, k, hk, hx⟩) fun x k hk hx => ⟨x, k, hk, hx, rfl, hpast [x] k hk⟩
    | start => exact .start Iff.rfl ⟨rfl, v, hv⟩
    | finish => exact .finish Iff.rfl ⟨rfl, v, hv⟩
    | _ => cases he

/-- The furthest attempt of a reading is in the text. -/
theorem Layering.place_attempts_in (L : Layering g) (r : R) (text : List Char) :
    (g.run (.expr (.call r)) ⟨.spaced, .consuming⟩ (.ofText text) .none).attempts.place.In text := by
  have hbeside := (Accord.inText g text).beside L (m := .spaced) (l := .consuming)
    (c := .ofText text) (t := .expr (.call r)) rfl rfl ⟨rfl, [], .refl _⟩ .none .none
    ⟨[], text, rfl, rfl⟩
  generalize g.run (.expr (.call r)) ⟨.spaced, .consuming⟩ (.ofText text) .none = o at hbeside
  cases hbeside with
  | fail ha => exact ha
  | read ha => exact ha

end Peg

/-- A syntax error is found at the offset it reports, on the line of this offset. -/
theorem SyntaxError.found_of_parse {text : String} {error : SyntaxError}
    (h : Schema.parse text = .error error) : ∃ before after : String, text = before ++ after ∧
      error.offset = before.utf8ByteSize ∧ error.line = 1 + before.toList.count '\n' := by
  rcases Schema.parse_cases text with ⟨a, hrun, herror⟩ | ⟨c, n, a, s, -, -, -, hok⟩
  · have hplace := survey.toLayering.place_attempts_in .schema text.toList
    rw [hrun] at hplace
    obtain ⟨before, after, htext, hplace⟩ := hplace
    obtain rfl := Except.error.inj (herror.symm.trans h)
    refine ⟨.ofList before, .ofList after, ?_, ?_, ?_⟩
    · rw [← String.toList_inj, htext]
      simp
    · rw [← Place.offset_origin_advance, ← hplace]
      rfl
    · rw [String.toList_ofList]
      exact (congrArg Place.line hplace).trans (Place.line_advance before _)
  · rw [hok] at h
    cases h

/-! ### Parts of a schema -/

section Parts

variable {text : String} {s : Schema} {m : Model} {cause : Cause} {x : Extent}

theorem Extent.Row.faithful {lo hi : Nat} {xs : List Extent} (h : Row text lo hi xs) (hx : x ∈ xs) :
    x.Faithful text := by
  induction xs generalizing lo with
  | nil => cases hx
  | cons y ys ih =>
    obtain ⟨-, hy, hys⟩ := h
    rcases List.mem_cons.mp hx with rfl | hx
    · exact hy
    · exact ih hys hx

/-- The parts inside a part that is in the text are in it too. -/
theorem Extent.Faithful.inside {y : Extent} (h : y.Faithful text) (hx : x ∈ y.inside) :
    x.Faithful text := by
  obtain ⟨span, label, inside⟩ := y
  exact h.2.faithful hx

theorem Extent.Faithful.exists_covers (h : x.Faithful text) :
    ∃ w, x.span.Covers text w ∧ x.label.Fits w := by
  obtain ⟨span, label, inside⟩ := x
  exact h.1

theorem ModelMember.faithful_of_parse (h : Schema.parse text = .ok s) (hm : m ∈ s.models)
    {member : ModelMember} (hmember : member ∈ m.members) (hx : x ∈ member.extents) :
    x.Faithful text := by
  have hmodel := (Schema.row_of_parse h).faithful (List.mem_map_of_mem (Schema.mem_models.mp hm))
  exact hmodel.inside (List.mem_cons_of_mem _ (List.mem_flatMap.mpr ⟨member, hmember, hx⟩))

theorem Attribute.extent_mem_field {f : Field} {a : Attribute} (ha : a ∈ f.attributes) :
    a.extent "@" ∈ f.extent.inside := by
  refine List.mem_cons_of_mem _ (List.mem_append_right _ (List.mem_append_left _ ?_))
  exact List.mem_map_of_mem ha

/-- What is declared wrongly stands in the text. -/
theorem Schema.Misdeclares.faithful (hparse : Schema.parse text = .ok s)
    (h : s.Misdeclares cause x) : x.Faithful text := by
  obtain ⟨before, d, after, hl, h⟩ := h
  have hd : d ∈ s.declarations := mem_of_split hl
  have hfaithful : d.extent.Faithful text :=
    (Schema.row_of_parse hparse).faithful (List.mem_map_of_mem hd)
  cases h with
  | model again => exact hfaithful.inside List.mem_cons_self
  | enum again => exact hfaithful.inside List.mem_cons_self
  | @member m before after member cause x split h =>
    have hline : ∀ {y}, y ∈ member.extents → y.Faithful text := fun hy =>
      ModelMember.faithful_of_parse hparse (mem_models.mpr hd) (mem_of_split split) hy
    cases h with
    | field scope again => exact (hline List.mem_cons_self).inside List.mem_cons_self
    | onField hattributes h =>
      have ha := Attribute.extent_mem_field (mem_of_split hattributes)
      exact (hline List.mem_cons_self).inside ha
    | onModel defect hu hshape => exact hline List.mem_cons_self
  | @value e before after v scope split again =>
    have hvalue : v.extent ∈ e.extent.inside := List.mem_cons_of_mem _
      (List.mem_flatMap.mpr ⟨.value v, mem_of_split split, List.mem_cons_self⟩)
    exact (hfaithful.inside hvalue).inside List.mem_cons_self

/-- What refers to nothing stands in the text. -/
theorem Schema.Misrefers.faithful (hparse : Schema.parse text = .ok s) (h : s.Misrefers cause x) :
    x.Faithful text := by
  obtain ⟨m, hm, member, hmember, h⟩ := h
  have hline : ∀ {y}, y ∈ member.extents → y.Faithful text := fun hy =>
    ModelMember.faithful_of_parse hparse hm hmember hy
  cases h with
  | type htype missing =>
    refine (hline List.mem_cons_self).inside (List.mem_cons_of_mem _ (List.mem_append_left _ ?_))
    rw [htype]
    exact List.mem_cons_self
  | onField ha hcause h => exact (hline List.mem_cons_self).inside (Attribute.extent_mem_field ha)
  | onModel hcause h => exact hline List.mem_cons_self

end Parts

/-! ### Failures -/

/-- Where a failure is found in a text, and on which line. A text that is no schema has the failure
at the offset that is reported. In a schema it is at a part that is to blame, where the text has
this part, and the message ends with the line. -/
inductive Failure.FoundOn (text : String) (line : Nat) : Failure → Prop
  | text {error : SyntaxError} {before after : String} (split : text = before ++ after)
    (offset : error.offset = before.utf8ByteSize) (lines : line = 1 + before.toList.count '\n') :
    FoundOn text line (.text error)
  | schema {fault : Fault} {s : Schema} {x : Extent} {w : String}
    (parsed : Schema.parse text = .ok s)
    (blamed : s.Misdeclares fault.cause x ∨ s.Misrefers fault.cause x)
    (covers : x.span.Covers text w) (fits : x.label.Fits w) (lines : line = x.span.line)
    (message : fault.message = fault.cause.message ++ s!" at line {line}") :
    FoundOn text line (.schema fault)

theorem Failure.FoundOn.bounds {text : String} {line : Nat} {failure : Failure}
    (h : failure.FoundOn text line) : 1 ≤ line ∧ line ≤ 1 + text.toList.count '\n' := by
  cases h with
  | text split offset lines =>
    rw [split, String.toList_append, List.count_append]
    omega
  | schema parsed blamed covers fits lines message =>
    obtain ⟨before, after, split, -, -, hline⟩ := covers
    rw [split, String.toList_append, String.toList_append, List.count_append, List.count_append]
    omega

/-- **Every failure is located.** A failure has a line of the text, and it is found there: a syntax
error at its offset, a name that is declared twice at its later declaration, a type that is not
declared where the field names it, and anything else at the sign of the attribute around it. -/
theorem obfuscate_located {n : Numbering} {text : String} {failure : Failure}
    (h : obfuscate n text = .error failure) : ∃ line, failure.line? = some line ∧
      1 ≤ line ∧ line ≤ 1 + text.toList.count '\n' ∧ failure.FoundOn text line := by
  suffices hfound : ∃ line, failure.line? = some line ∧ failure.FoundOn text line by
    obtain ⟨line, hline, hfound⟩ := hfound
    exact ⟨line, hline, hfound.bounds.1, hfound.bounds.2, hfound⟩
  unfold obfuscate at h
  cases hparse : Schema.parse text with
  | error error =>
    rw [hparse] at h
    cases h
    obtain ⟨before, after, split, offset, hline⟩ := SyntaxError.found_of_parse hparse
    exact ⟨error.line, rfl, .text split offset hline⟩
  | ok s =>
    rw [hparse] at h
    have h : ((s.obfuscate n).mapError Failure.schema >>= fun p => .ok (p.1.render, p.2)) =
        .error failure := h
    cases hs : s.obfuscate n with
    | ok result =>
      rw [hs] at h
      cases h
    | error fault =>
      rw [hs] at h
      cases h
      obtain ⟨x, hblamed, hline⟩ := s.fails_obfuscate_at n fault hs
      have hfaithful : x.Faithful text := by
        rcases hblamed with hx | hx
        · exact hx.faithful hparse
        · exact hx.faithful hparse
      obtain ⟨w, hcovers, hfits⟩ := hfaithful.exists_covers
      refine ⟨x.span.line, hline, .schema hparse hblamed hcovers hfits rfl ?_⟩
      rw [Fault.message, hline]

/-- A text with a reference to no field, two lines below the sign of the attribute. -/
def dangling : String :=
  "model Post \x7b\n  id Int @id\n  self Post @relation(\n    fields: [id],\n" ++
  "    references: [key])\n\x7d\n"

theorem obfuscate_located_dangling : ∃ failure, obfuscate .perEnum dangling = .error failure ∧
    failure.line? = some 3 ∧ failure.FoundOn dangling 3 := by
  have hfails : (match obfuscate .perEnum dangling with
      | .error failure => failure.line?
      | .ok _ => none) = some 3 := by decide +kernel
  cases h : obfuscate .perEnum dangling with
  | ok result =>
    rw [h] at hfails
    cases hfails
  | error failure =>
    rw [h] at hfails
    obtain ⟨line, hline, -, -, hfound⟩ := obfuscate_located h
    obtain rfl : line = 3 := Option.some.inj (hline.symm.trans hfails)
    exact ⟨failure, rfl, hline, hfound⟩

end Pseudonym

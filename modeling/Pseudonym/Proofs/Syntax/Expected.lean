/-
# What was expected

A text that is no schema is refused at the furthest place where a rule has
failed, and the rules that failed there are what was expected. The negations
of the grammar call no rules, so nothing is ever found that was not expected;
and since the end of the text is asked for behind the last declaration, some
rule has failed there or further on.

The error therefore names a place in the text that is not before the end of any
declaration, and at least one rule, each of which does fail at this place.

Key definitions: `Rule.FailsAt`, `Peg.Attempts.Warranted`.
-/
import Pseudonym.Proofs.Obfuscate.Located
import Pseudonym.Proofs.Peg.Furthest
import Pseudonym.Proofs.Syntax.Appended

namespace Pseudonym

open Peg

/-! ### Attempts with a reason -/

/-- The rule cannot be read so many bytes behind the start of the text. -/
def Rule.FailsAt (text : List Char) (offset : Nat) (r : Rule) : Prop :=
  ∃ m w c, Cursor.Past w (.ofText text) c ∧ c.place.offset = offset ∧
    Derives grammar m (.expr (.call r)) c none

/-- Nothing is unexpected, something is expected once the start has been left, and what is expected
fails where it is. -/
structure Peg.Attempts.Warranted (text : List Char) (a : Attempts Rule) : Prop where
  unexpected : a.unexpected = []
  expected : a.place.offset ≠ 0 → a.expected ≠ []
  fails : ∀ r ∈ a.expected, r.FailsAt text a.place.offset

section Warranted

variable {text : List Char} {m : Mode} {c : Cursor} {w : List Char} {a e : Attempts Rule} {r : Rule}

/-- A rule that fails keeps the attempts warranted. -/
theorem warranted_record (h : a.Warranted text) (hc : Cursor.Past w (.ofText text) c)
    (hfails : Derives grammar m (.expr (.call r)) c none) :
    (a.record e r c.place false).Warranted text := by
  refine ⟨a.unexpected_record e r c.place h.unexpected, ?_, ?_⟩
  · rcases a.record_eq_or e r c.place with heq | hne
    · rw [heq]
      exact h.expected
    · exact fun _ => hne
  · intro r' hr'
    rcases a.mem_expected_record e r c.place hr' with ⟨hmem, hplace⟩ | ⟨rfl, hplace⟩
    · rw [hplace]
      exact h.fails r' hmem
    · rw [hplace]
      exact ⟨m, w, c, hc, rfl, hfails⟩

/-- What is read from the start of a text leaves warranted attempts. -/
theorem warranted_run {t : Goal Rule} (ht : t.steady survey.empty = true) (ht' : t.upright = true) :
    (grammar.run t ⟨m, .consuming⟩ (.ofText text) .none).attempts.Warranted text := by
  have hnone : Attempts.Warranted text .none := ⟨rfl, fun h => absurd rfl h, nofun⟩
  have hbodies : ∀ r, (grammar.body r).upright = true := fun r => by cases r <;> rfl
  have hderives : Derives grammar m t (.ofText text) (grammar.run t ⟨m, .consuming⟩ (.ofText text)
      .none).result := survey.toLayering.run_derives ht
  exact survey.toLayering.run_keeps (fun _ _ _ _ _ _ hc hfails ha _ => warranted_record ha hc hfails) hbodies
    hderives (.refl _) ht ht' .none hnone

end Warranted

/-! ### Behind the last declaration -/

/-- Rounds that skip blanks first are those of a repetition behind the blanks. -/
theorem Peg.Derives.many_skip {R : Type} {g : Grammar R} {m : Mode} {e : Expr R} {c c₁ : Cursor}
    {ns : List (Node R)} (h : Derives g m (.more e) c (some (c₁, ns))) :
    ∃ c₂, Derives g m (.expr (.many e)) (g.skip m c) (some (c₂, ns)) ∧
      g.skip m c₂ = g.skip m c₁ := by
  cases h with
  | more hround hmore => exact ⟨c₁, .many hround hmore, rfl⟩
  | moreNone hround => exact ⟨_, .manyNone hround, g.skip_skip m _⟩

/-- The attempts of a text that is no schema: those of its declarations, then the end of the text
and the schema itself. -/
theorem run_schema_none {text : List Char} {a : Attempts Rule}
    (h : grammar.run (.expr (.call .schema)) ⟨.spaced, .consuming⟩ (.ofText text) .none = ⟨none, a⟩) :
    ∃ c ns a₁, grammar.run (.more declaration) ⟨.spaced, .consuming⟩ (.ofText text) .none =
        ⟨some (c, ns), a₁⟩ ∧ (grammar.skip .spaced c).rest ≠ [] ∧
      a = (a₁.record a₁ .endOfText (grammar.skip .spaced c).place false).record
        .none .schema .origin false := by
  have hinner : (grammar.kind .schema).innerMode .spaced = .spaced := rfl
  obtain ⟨⟨c, ns⟩, a₁, hrounds⟩ := survey.toLayering.run_more_after (e := declaration)
    (m := .spaced) (l := .consuming) rfl [] (.ofText text) .none
  rw [Outcome.after_nil] at hrounds
  rw [survey.toLayering.run_call, Reader.rule, hinner, run_body_schema,
    readDeclarations_of_some hrounds] at h
  refine ⟨c, ns, a₁, hrounds, ?_⟩
  by_cases hrest : (grammar.skip .spaced c).rest = []
  · rw [if_pos hrest] at h
    cases h
  · rw [if_neg hrest] at h
    cases h
    exact ⟨hrest, rfl⟩

/-- Behind the last declaration of a text that is no schema, its end was expected in vain. The
attempts are warranted, something is expected, and the furthest place is not before that. -/
theorem warranted_of_schema_none {text : List Char} {a : Attempts Rule}
    (h : grammar.run (.expr (.call .schema)) ⟨.spaced, .consuming⟩ (.ofText text) .none = ⟨none, a⟩) :
    a.Warranted text ∧ a.expected ≠ [] ∧
      ∃ c ns, Parses .spaced (.many declaration) (grammar.skip .spaced (.ofText text)) c ns ∧
        c.place.offset ≤ a.place.offset := by
  obtain ⟨c, ns, a₁, hrounds, hrest, ha⟩ := run_schema_none h
  have hwarranted₁ : (grammar.run (.more declaration) ⟨.spaced, .consuming⟩ (.ofText text)
      .none).attempts.Warranted text := warranted_run rfl rfl
  have hmore : Derives grammar .spaced (.more declaration) (.ofText text) (grammar.run
      (.more declaration) ⟨.spaced, .consuming⟩ (.ofText text) .none).result :=
    survey.toLayering.run_derives rfl
  rw [hrounds] at hwarranted₁ hmore
  have hend : Derives grammar .spaced (.expr (.call .endOfText)) (grammar.skip .spaced c) none := by
    have hrun := survey.toLayering.run_derives (m := .spaced) (l := .consuming)
      (c := grammar.skip .spaced c) (a := a₁) (t := .expr (.call .endOfText)) rfl
    rw [run_endOfText, if_neg hrest] at hrun
    exact hrun
  have hschema : Derives grammar .spaced (.expr (.call .schema)) (.ofText text) none := by
    have hrun := survey.toLayering.run_derives (m := .spaced) (l := .consuming)
      (c := .ofText text) (a := .none) (t := .expr (.call .schema)) rfl
    rw [h] at hrun
    exact hrun
  obtain ⟨w, hw⟩ := hmore.past _ rfl
  obtain ⟨b, hb⟩ := grammar.past_skip .spaced c
  have hwarranted₂ := warranted_record (e := a₁) hwarranted₁ (hw.trans hb) hend
  obtain ⟨c₂, hmany, hskip⟩ := hmore.many_skip
  obtain ⟨b₂, hb₂⟩ := grammar.past_skip .spaced c₂
  refine ⟨?_, ?_, c₂, ns, hmany, ?_⟩
  · rw [ha]
    exact warranted_record hwarranted₂ (.refl (.ofText text)) hschema
  · rw [ha]
    exact Attempts.expected_record_origin_ne_nil _ _ hwarranted₂.unexpected hwarranted₂.expected
  · rw [ha, Attempts.place_record_origin]
    calc c₂.place.offset
      _ ≤ (grammar.skip .spaced c₂).place.offset := hb₂.offset_le
      _ = (grammar.skip .spaced c).place.offset := by rw [hskip]
      _ ≤ _ := Attempts.le_place_record_self ..

/-! ### Errors -/

/-- Parts that start a text are the same if they have the same number of bytes. -/
theorem Place.eq_of_offset_advance {w w' k k' : List Char} (h : w ++ k = w' ++ k')
    (hoffset : (Place.origin.advance w).offset = (Place.origin.advance w').offset) : w = w' := by
  have hnone : ∀ v v' : List Char,
      (Place.origin.advance (v ++ v')).offset = (Place.origin.advance v).offset → v' = [] := by
    intro v v' heq
    rw [offset_advance, offset_advance, List.map_append, List.sum_append] at heq
    refine ((offset_advance_eq_zero .origin).mp ?_).2
    rw [offset_advance]
    simp only [Place.origin] at heq ⊢
    omega
  rcases List.append_eq_append_iff.mp h with ⟨v, rfl, -⟩ | ⟨v, rfl, -⟩
  · rw [hnone w v hoffset.symm, List.append_nil]
  · rw [hnone w' v hoffset, List.append_nil]

/-- A rule that fails behind some bytes fails behind the characters that have them. -/
theorem Rule.FailsAt.behind {before after : List Char} {r : Rule}
    (h : r.FailsAt (before ++ after) (Place.origin.advance before).offset) :
    ∃ m, Derives grammar m (.expr (.call r)) ⟨Place.origin.advance before, after⟩ none := by
  obtain ⟨m, w, ⟨place, rest⟩, ⟨htext, rfl⟩, hoffset, hfails⟩ := h
  obtain rfl : before = w := Place.eq_of_offset_advance htext hoffset.symm
  obtain rfl : after = rest := List.append_cancel_left htext
  exact ⟨m, hfails⟩

namespace SyntaxError

/-- Where nothing is unexpected, the reason lists what was expected. -/
theorem reasonOf_expected {a : Attempts Rule} (hunexpected : a.unexpected = [])
    (hexpected : a.expected ≠ []) : reasonOf a = "expected " ++ listing a.expected := by
  obtain ⟨place, expected, unexpected⟩ := a
  obtain rfl : unexpected = [] := hunexpected
  cases expected with
  | nil => exact absurd rfl hexpected
  | cons r rs => rfl

/-- A listing names the rules, each once and in the order of the grammar. -/
theorem listing_eq_enumerate {rules : List Rule} (hne : rules ≠ []) :
    ∃ named : List Rule, named ≠ [] ∧ named.Nodup ∧ named.Sublist Rule.all ∧
      listing rules = enumerate (named.map (·.name)) ∧ ∀ r ∈ named, r ∈ rules := by
  have hnodup : Rule.all.Nodup := by decide
  refine ⟨Rule.all.filter (rules.contains ·), ?_, hnodup.filter _, List.filter_sublist, rfl, ?_⟩
  · obtain ⟨r, hr⟩ := List.exists_mem_of_ne_nil rules hne
    have hall : r ∈ Rule.all := by cases r <;> decide
    exact List.ne_nil_of_mem (List.mem_filter.mpr ⟨hall, List.contains_iff_mem.mpr hr⟩)
  · intro r hr
    exact List.contains_iff_mem.mp (List.mem_filter.mp hr).2

/-- What an error says about the text before and behind it. -/
structure FoundBetween (before after : String) (error : SyntaxError) : Prop where
  offset : error.offset = before.utf8ByteSize
  line : error.line = 1 + before.toList.count '\n'
  /-- It is not before the end of any declaration that was read. -/
  declarations : ∃ c ns, Derives grammar .spaced (.expr (.many declaration))
      (grammar.skip .spaced (.ofText (before ++ after).toList)) (some (c, ns)) ∧
    c.place.offset ≤ error.offset ∧ ∀ n ∈ ns, n.span.stop ≤ error.offset
  /-- Rules were expected: one at least, each once, in the order of the grammar, which has the end
  of the text first. Each of them fails here. -/
  expected : ∃ rules : List Rule, rules ≠ [] ∧ rules.Nodup ∧ rules.Sublist Rule.all ∧
    error.reason = "expected " ++ enumerate (rules.map (·.name)) ∧
    ∀ r ∈ rules, ∃ m, Derives grammar m (.expr (.call r))
      ⟨Place.origin.advance before.toList, after.toList⟩ none

/-- **Syntax errors say what was expected, and where.** The error of a text that is no schema is
found at an offset between two of its characters. It says the line of this offset, is not before the
end of any declaration that was read, and lists rules that were expected there. -/
theorem expected_of_parse {text : String} {error : SyntaxError}
    (h : Schema.parse text = .error error) :
    error.offset ≤ text.utf8ByteSize ∧
      ∃ before after, text = before ++ after ∧ error.FoundBetween before after := by
  obtain ⟨before, after, rfl, hoffset, hline⟩ := found_of_parse h
  rcases Schema.parse_cases (before ++ after) with ⟨a, hrun, herror⟩ | ⟨_, _, _, s, -, -, -, hok⟩
  swap
  · rw [hok] at h
    cases h
  obtain rfl := Except.error.inj (herror.symm.trans h)
  obtain ⟨hwarranted, hexpected, c, ns, hmany, hend⟩ := warranted_of_schema_none hrun
  obtain ⟨named, hne, hnodup, hsublist, hlisting, hnamed⟩ := listing_eq_enumerate hexpected
  have hplace : a.place.offset = (Place.origin.advance before.toList).offset := by
    rw [Place.offset_origin_advance, String.ofList_toList]
    exact hoffset
  refine ⟨?_, before, after, rfl, hoffset, hline, ⟨c, ns, hmany, hend, ?_⟩, named, hne, hnodup,
    hsublist, ?_, ?_⟩
  · rw [hoffset, String.utf8ByteSize_append]
    exact Nat.le_add_right _ _
  · intro n hn
    exact Nat.le_trans ((hmany.inRow _ rfl).mem hn).2 hend
  · rw [← hlisting]
    exact reasonOf_expected hwarranted.unexpected hexpected
  · intro r hr
    have hfails := hwarranted.fails r (hnamed r hr)
    rw [String.toList_append, hplace] at hfails
    exact hfails.behind

/-- An enum, and behind it a letter that starts no declaration. -/
def outcry : String := "// é\nenum E \x7b\n  X\n\x7d\r\n é\x7d"

theorem expected_of_parse_outcry :
    ∃ error, Schema.parse outcry = .error error ∧ error.offset ≤ outcry.utf8ByteSize ∧
      ∃ before after, outcry = before ++ after ∧ error.FoundBetween before after := by
  have hfails : (Schema.parse outcry).toBool = false := by decide +kernel
  cases herror : Schema.parse outcry with
  | error error => exact ⟨error, rfl, expected_of_parse herror⟩
  | ok s =>
    rw [herror] at hfails
    cases hfails

end SyntaxError

end Pseudonym

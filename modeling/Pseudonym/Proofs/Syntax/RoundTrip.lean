/-
# Writing and reading schemas

A schema that is read from a text is well spelled, and a well-spelled schema
that is written is read again as what is kept of it: everything but the spans
and the comments without text. So nothing that is written is taken for
something else, wherever it stands.
-/
import Pseudonym.Proofs.Syntax.Parsed

namespace Pseudonym

open Peg

variable {text : String} {s : Schema}

/-! ### What is read -/

/-- Reading a text gives what can be derived at its start. -/
theorem Schema.parse_of_derives {c : Cursor} {n : Tree}
    (h : Parses .spaced (.call .schema) (.ofText text.toList) c [n]) :
    Schema.parse text = Schema.ofNode n := by
  have hread : (grammar.read .schema text.toList).result = some (c, [n]) :=
    (Layering.read_derives survey.toLayering Rule.schema text.toList).unique h
  unfold Schema.parse
  split
  next heq => simp [heq] at hread
  next heq => simp [heq] at hread
  next heq =>
    rw [heq] at hread
    cases hread
    rfl

/-- A schema that is read is well spelled, with a comment in each block of comments. -/
theorem Schema.readable_of_parse (h : Schema.parse text = .ok s) : s.Readable := by
  have hread := Layering.read_derives survey.toLayering Rule.schema text.toList
  unfold Schema.parse at h
  split at h
  next => cases h
  next => cases h
  next c root ns attempts heq =>
    rw [heq] at hread
    obtain ⟨n, hn, s', hs', hreadable⟩ := of_schema hread
    cases hn
    cases hs'.symm.trans h
    exact hreadable

theorem Schema.wellSpelled_of_parse (h : Schema.parse text = .ok s) : s.WellSpelled :=
  fun d hd => (readable_of_parse h d hd).1

/-! ### What is written -/

/-- How a schema is written, declaration by declaration. -/
theorem Schema.toList_render (s : Schema) :
    s.render.toList = writtenDeclarations (·.render.toList) s.declarations := by
  have hfurther : ∀ ds : List Declaration,
      (ds.map fun d => "\n\n".toList ++ d.render.toList).flatten ++ ['\n'] =
        ['\n'] ++ furtherDeclarations (·.render.toList) ds := by
    intro ds
    induction ds with
    | nil => rfl
    | cons d ds ih =>
      rw [List.map_cons, List.flatten_cons, List.append_assoc, ih, furtherDeclarations]
      simp
  obtain ⟨ds⟩ := s
  cases ds with
  | nil => rfl
  | cons d ds =>
    rw [Schema.render, if_neg (by simp), String.toList_append, String.toList_intercalate,
      List.map_cons, List.map_cons, intercalate_cons, List.map_map, List.map_map,
      writtenDeclarations, ← hfurther ds, List.append_assoc]
    rfl

theorem Schema.reads_render (h : s.WellSpelled) :
    ReadsAs (.many declaration) s.render.toList []
      (List.Forall₂ IsDeclaration s.tidied.declarations) := by
  rw [Schema.toList_render]
  exact reads_declarations fun d hd => Declaration.reads (h d hd)

theorem reads_endOfText :
    ReadsAs (.call .endOfText) [] [] (Single (·.rule = .endOfText)) := by
  have hbody : ReadsAs (grammar.body .endOfText) [] [] Silent :=
    fun s => ⟨_, [], .finish rfl, rfl, rfl⟩
  refine (Reads.call hbody (fun _ _ h => by cases h) (by decide)).mono ?_
  rintro _ ⟨n, rfl, hrule, -⟩
  exact ⟨n, rfl, hrule⟩

/-- A text that is read as declarations up to its end is read as a schema. -/
theorem Schema.parse_of_reads {ys : List Declaration}
    (h : ReadsAs (.many declaration) text.toList []
      (List.Forall₂ IsDeclaration ys)) :
    ∃ s, Schema.parse text = .ok s ∧ s.unplaced = Schema.unplaced ⟨ys⟩ := by
  have hrest := Reads.seq (v := []) h reads_endOfText
    (T := fun ns => ∃ ds last, ns = ds ++ [last] ∧ List.Forall₂ IsDeclaration ys ds ∧
      last.rule = .endOfText) fun ds _ hds ⟨last, hlast, hrule⟩ => ⟨ds, last, by rw [hlast], hds, hrule⟩
  rw [List.append_nil] at hrest
  obtain ⟨c, _, hderives, -, ds, last, rfl, hds, hrule⟩ := hrest .origin
  rw [List.append_nil] at hderives
  have hbody : Parses .spaced (grammar.body .schema) (.ofText text.toList) c (ds ++ [last]) :=
    .seq (.start rfl) hderives rfl
  obtain ⟨zs, hzs, hunplaced⟩ := mapM_members hds
  have hlast : Declaration.ofNode? last = .ok none := by
    rw [Declaration.ofNode?, hrule]
  refine ⟨⟨zs.filterMap id⟩, ?_, congrArg Schema.mk hunplaced⟩
  rw [Schema.parse_of_derives (.call hbody rfl)]
  simp only [Schema.ofNode, List.mapM_append, hzs, List.mapM_cons, hlast, List.mapM_nil]
  show Except.ok (Schema.mk ((zs ++ [none]).filterMap id)) = _
  rw [List.filterMap_append]
  simp

/-- A well-spelled schema that is written is read as what is kept of it. -/
theorem Schema.parse_render_of_wellSpelled (h : s.WellSpelled) :
    ∃ s', Schema.parse s.render = .ok s' ∧ s'.unplaced = s.tidied.unplaced :=
  Schema.parse_of_reads (Schema.reads_render h)

/-- **Reading undoes writing.** A schema that was read from a text is read again from what is
written of it, up to spans. Only comments without text are not kept: those that stand alone are
dropped, and so are blocks of comments that have no others; at the end of a line they stay, as
comments for readers of the source. -/
theorem Schema.parse_render {text : String} {s : Schema} (h : Schema.parse text = .ok s) :
    ∃ s', Schema.parse s.render = .ok s' ∧ s'.unplaced = s.tidied.unplaced :=
  Schema.parse_render_of_wellSpelled (Schema.wellSpelled_of_parse h)

/-- A text with empty comments in all places, and with words that start like others. -/
def Schema.disguised : String :=
  "///\n//\n\n// enum\n//\nmodel true \x7b //\n  ///\n  model Unsupported ///\n" ++
  "  f Unsupported(\"(\") @a.b(x: [x.true, -01, env(\"\\\"\",)]) //x\n\x7d"

theorem Schema.parse_render_disguised : ∃ s s', Schema.parse disguised = .ok s ∧
    Schema.parse s.render = .ok s' ∧ s'.unplaced = s.tidied.unplaced := by
  have hok : (Schema.parse disguised).toBool = true := by decide +kernel
  cases h : Schema.parse disguised with
  | error e =>
    rw [h] at hok
    cases hok
  | ok s =>
    obtain ⟨s', hs', hunplaced⟩ := parse_render h
    exact ⟨s, s', rfl, hs', hunplaced⟩

end Pseudonym

/-
# Obfuscating again

The names that an obfuscation gives out are given out again, to the same
places, when the result is obfuscated: the new names of a result are its
names. Its texts are neutral already, so all that is left to change are the
numbers of environment variables, where some of them were dropped with an
expression of the database, and the loose comments, of which nothing but empty
lines was written. After a second run nothing is left to change.

Key definitions: `Schema.hasLoose`.
-/
import Pseudonym.Proofs.Obfuscate.KeptEnv
import Pseudonym.Proofs.Obfuscate.Noninterference
import Pseudonym.Proofs.Obfuscate.Reread

namespace Pseudonym

/-! ### The result of a result -/

namespace Schema

variable {n : Numbering} {s : Schema}

theorem obfuscate_of_accepted (hs : s.Accepted) : ∃ r, s.obfuscate n = .ok (s.result n, r) := by
  obtain ⟨⟨t, r⟩, ht⟩ := (s.meets_obfuscate n).iff.mpr hs
  obtain ⟨rfl, -⟩ := eq_result_of_ok ht
  exact ⟨r, ht⟩

/-- A schema under its new names is accepted, and its result is the same. -/
theorem result_rename (hs : s.Accepted) :
    (s.rename (s.outline n).newNames).Accepted ∧
      (s.rename (s.outline n).newNames).result n = s.result n := by
  have halike := alike_obfuscate_rename_of_faithful (n := n) (s.outline n).newNames_faithful s
  obtain ⟨r, hr⟩ := obfuscate_of_accepted (n := n) hs
  rw [hr] at halike
  cases hrenamed : (s.rename (s.outline n).newNames).obfuscate n with
  | error e =>
    rw [hrenamed] at halike
    exact halike.elim
  | ok p =>
    rw [hrenamed] at halike
    obtain ⟨hresult, -⟩ := halike
    obtain ⟨t, r'⟩ := p
    have haccepted := ((meets_obfuscate n _).of_ok hrenamed).1
    obtain ⟨rfl, -⟩ := eq_result_of_ok hrenamed
    exact ⟨haccepted, hresult.symm⟩

theorem result_eq_numberEnv (s : Schema) : s.result n =
    ((s.rename (s.outline n).newNames).numberEnv 0).1.retext .neutral := by
  rw [result, rename_numberEnv]

/-- A result declares what the renamed schema declares. -/
theorem outline_result (s : Schema) :
    (s.result n).outline n = (s.rename (s.outline n).newNames).outline n := by
  rw [result_eq_numberEnv, (agrees_retext _ _).outline, outline_numberEnv]

/-- A result can be obfuscated again. -/
theorem accepted_result (hs : s.Accepted) : (s.result n).Accepted := by
  rw [result_eq_numberEnv, (agrees_retext _ _).accepted, accepted_numberEnv]
  exact (result_rename hs).1

/-- The new names of a result are its names: every one of them is given out once more. -/
theorem retext_rename_newNames_result (hs : s.Accepted) :
    ((s.result n).rename ((s.result n).outline n).newNames).retext .neutral = s.result n := by
  rw [retext_rename_result hs, outline_result, rename_numberEnv]
  exact (result_rename hs).2

/-- **The result of a result** differs from it in the numbers of environment variables only. -/
theorem result_result (hs : s.Accepted) :
    (s.result n).result n = ((s.result n).numberEnv 0).1 := by
  have hdrops : ((s.result n).rename ((s.result n).outline n).newNames).dropsEnv = false := by
    rw [dropsEnv_rename, result, dropsEnv_retext]
  calc (s.result n).result n
      = (((s.result n).rename ((s.result n).outline n).newNames).numberEnv 0).1.retext .neutral :=
        result_eq_numberEnv _
    _ = ((((s.result n).rename ((s.result n).outline n).newNames).retext .neutral).numberEnv 0).1 :=
        (numberEnv_retext .neutral hdrops 0).symm
    _ = ((s.result n).numberEnv 0).1 := by rw [retext_rename_newNames_result hs]

/-- Where no environment variable was dropped, a result has its numbers. -/
theorem numberEnv_result (h : s.dropsEnv = false) : ((s.result n).numberEnv 0).1 = s.result n := by
  have hdrops : (s.rename (s.outline n).newNames).dropsEnv = false := by rw [dropsEnv_rename, h]
  rw [result_eq_numberEnv, ← numberEnv_retext .neutral hdrops 0, numberEnv_twice]

end Schema

/-! ### Writing without spans -/

mutual

theorem Value.render_mapSpan (f : Span → Span) : ∀ v : Value, (v.mapSpan f).render = v.render
  | .call name args => by
    simp only [Value.mapSpan, Value.render, Argument.renderEach_mapSpanEach f args]
  | .array items => by
    simp only [Value.mapSpan, Value.render, Value.renderEach_mapSpanEach f items]
  | .string _ | .int _ | .number _ | .boolean _ | .path _ => by simp only [Value.mapSpan]

theorem Value.renderEach_mapSpanEach (f : Span → Span) : ∀ l : List Value,
    Value.renderEach (Value.mapSpanEach f l) = Value.renderEach l
  | [] => rfl
  | v :: l => by
    simp only [Value.mapSpanEach, Value.renderEach, Value.render_mapSpan f v,
      Value.renderEach_mapSpanEach f l]

theorem Argument.renderEach_mapSpanEach (f : Span → Span) : ∀ args : List Argument,
    Argument.renderEach (Argument.mapSpanEach f args) = Argument.renderEach args
  | [] => rfl
  | ⟨none, value, _⟩ :: rest => by
    simp only [Argument.mapSpanEach, Option.map_none, Argument.renderEach,
      Value.render_mapSpan f value, Argument.renderEach_mapSpanEach f rest]
  | ⟨some name, value, _⟩ :: rest => by
    simp only [Argument.mapSpanEach, Option.map_some, Argument.renderEach, Ident.mapSpan,
      Value.render_mapSpan f value, Argument.renderEach_mapSpanEach f rest]

end

theorem Attribute.render_unplaced (sign : String) (a : Attribute) :
    a.unplaced.render sign = a.render sign := by
  have hempty : a.unplaced.args.isEmpty = a.args.isEmpty := by
    rw [Attribute.unplaced, Argument.unplacedEach, Argument.mapSpanEach_eq_map, List.isEmpty_map]
  simp only [Attribute.render, hempty]
  simp only [Attribute.unplaced, Ident.unplaced, Argument.unplacedEach,
    Argument.renderEach_mapSpanEach]

theorem Attribute.renderTail_unplaced (attributes : List Attribute) :
    renderTail (attributes.map (·.unplaced)) = renderTail attributes := by
  simp only [renderTail, List.map_map, Function.comp_def, render_unplaced]

theorem FieldType.render_unplaced (type : FieldType) : type.unplaced.render = type.render := by
  cases type <;> rfl

/-! Lines are compared with any comment behind them that is written in the same way. -/

section Lines

variable {c : Option Comment} {x : Span}

theorem Field.line_unplaced {f : Field} (h : Comment.trailing c = Comment.trailing f.comment) :
    (Field.mk f.name.unplaced f.type.unplaced f.modifier (f.attributes.map (·.unplaced)) c x).line =
      f.line := by
  simp only [Field.line, h, FieldType.render_unplaced, Attribute.renderTail_unplaced]
  rfl

theorem BlockAttribute.line_unplaced {a : BlockAttribute}
    (h : Comment.trailing c = Comment.trailing a.comment) :
    (BlockAttribute.mk a.attr.unplaced c).line = a.line := by
  simp only [BlockAttribute.line, h, Attribute.render_unplaced]

theorem EnumValue.line_unplaced {v : EnumValue}
    (h : Comment.trailing c = Comment.trailing v.comment) :
    (EnumValue.mk v.name.unplaced (v.attributes.map (·.unplaced)) c x).line = v.line := by
  simp only [EnumValue.line, h, Attribute.renderTail_unplaced]
  rfl

theorem Property.line_unplaced {p : Property}
    (h : Comment.trailing c = Comment.trailing p.comment) :
    (Property.mk p.name.unplaced p.value.unplaced c x).line = p.line := by
  simp only [Property.line, h, Value.unplaced, Value.render_mapSpan]
  rfl

end Lines

/-- Declarations that are written the same line by line are written the same. -/
theorem Schema.render_map {f : Declaration → Declaration} {s : Schema}
    (h : ∀ d ∈ s.declarations, (f d).render = d.render) :
    (Schema.mk (s.declarations.map f)).render = s.render := by
  have hrender : (s.declarations.map f).map (·.render) = s.declarations.map (·.render) := by
    rw [List.map_map]
    exact List.map_congr_left h
  simp only [render, hrender, List.isEmpty_map]

theorem map_line {α : Type} {line : α → String} {f : α → α} {l : List α}
    (h : ∀ a ∈ l, line (f a) = line a) : (l.map f).map line = l.map line := by
  rw [List.map_map]
  exact List.map_congr_left h

theorem Comment.trailing_unplaced (c : Option Comment) :
    Comment.trailing (c.map (·.unplaced)) = Comment.trailing c := by
  cases c <;> rfl

/-- Spans are not written. -/
theorem Schema.render_unplaced (s : Schema) : s.unplaced.render = s.render := by
  refine render_map fun d _ => ?_
  cases d with
  | model m =>
    refine congrArg (renderBlock "model" m.name.name) (map_line fun member _ => ?_)
    cases member with
    | field f => exact Field.line_unplaced (Comment.trailing_unplaced f.comment)
    | blockAttribute a => exact BlockAttribute.line_unplaced (Comment.trailing_unplaced a.comment)
    | comment c => rfl
  | enum e =>
    refine congrArg (renderBlock "enum" e.name.name) (map_line fun member _ => ?_)
    cases member with
    | value v => exact EnumValue.line_unplaced (Comment.trailing_unplaced v.comment)
    | blockAttribute a => exact BlockAttribute.line_unplaced (Comment.trailing_unplaced a.comment)
    | comment c => rfl
  | config b =>
    refine congrArg (renderBlock b.kind.word b.name.name) (map_line fun member _ => ?_)
    cases member with
    | property p => exact Property.line_unplaced (Comment.trailing_unplaced p.comment)
    | comment c => rfl
  | comments b =>
    simp only [Declaration.unplaced, Declaration.render, CommentBlock.render, List.filter_map,
      List.map_map]
    rfl

/-- Empty comments at the ends of lines are all written the same. -/
theorem Comment.trailing_plain (c : Option Comment) :
    Comment.trailing ((c.map (·.cleared)).map Retouch.plain.comment) =
      Comment.trailing (c.map (·.cleared)) := by
  cases c <;> rfl

theorem Retouch.plain_field (f : Field) : Retouch.plain.onField f =
    ⟨f.name.unplaced, f.type.unplaced, f.modifier, f.attributes.map (·.unplaced),
      f.comment.map Retouch.plain.comment, .nowhere⟩ := by
  have htype : Retouch.plain.onType f.type = f.type.unplaced := by cases f.type <;> rfl
  rw [Retouch.onField, htype, onAttribute_plain]
  rfl

theorem Retouch.plain_blockAttribute (a : BlockAttribute) : Retouch.plain.onBlockAttribute a =
    ⟨a.attr.unplaced, a.comment.map Retouch.plain.comment⟩ := by
  rw [Retouch.onBlockAttribute, onAttribute_plain]

/-- Where all comments are empty, only the loose ones are told from others. -/
theorem Schema.render_plain_retext (T : Texts) (s : Schema) :
    ((s.retext T).retouch .plain).render = (s.retext T).render := by
  refine render_map fun d hd => ?_
  obtain ⟨d₀, -, rfl⟩ := List.mem_map.mp hd
  cases d₀ with
  | model m =>
    refine congrArg (renderBlock "model" m.name.name) (map_line fun member hmember => ?_)
    obtain ⟨member₀, -, number, rfl⟩ :=
      exists_left_of_forall₂ (forall₂_numberAlong 0 m.members) hmember
    cases member₀ with
    | field f =>
      show (Retouch.plain.onField (f.retext T m.name.name)).line = _
      rw [Retouch.plain_field]
      exact Field.line_unplaced (Comment.trailing_plain f.comment)
    | blockAttribute a =>
      show (Retouch.plain.onBlockAttribute _).line = _
      rw [Retouch.plain_blockAttribute]
      exact BlockAttribute.line_unplaced (Comment.trailing_plain a.comment)
    | comment c => rfl
  | enum e =>
    refine congrArg (renderBlock "enum" e.name.name) (map_line fun member hmember => ?_)
    obtain ⟨member₀, -, rfl⟩ := List.mem_map.mp hmember
    cases member₀ with
    | value v =>
      show EnumValue.line ⟨v.name.unplaced, v.attributes.map Retouch.plain.onAttribute, _, _⟩ = _
      rw [onAttribute_plain]
      exact EnumValue.line_unplaced (v := { v with comment := v.comment.map (·.cleared) })
        (Comment.trailing_plain v.comment)
    | blockAttribute a =>
      show (Retouch.plain.onBlockAttribute _).line = _
      rw [Retouch.plain_blockAttribute]
      exact BlockAttribute.line_unplaced (Comment.trailing_plain a.comment)
    | comment c => rfl
  | config b =>
    refine congrArg (renderBlock b.kind.word b.name.name) (map_line fun member hmember => ?_)
    obtain ⟨member₀, -, rfl⟩ := List.mem_map.mp hmember
    cases member₀ with
    | property p =>
      exact Property.line_unplaced (p := { p with comment := p.comment.map (·.cleared) })
        (Comment.trailing_plain p.comment)
    | comment c => rfl
  | comments b => rfl

/-! ### Rounds -/

/-- Whether a declaration is a block of comments or has a loose one. -/
def Declaration.hasLoose : Declaration → Bool
  | .config b => b.members.any (·.kept?.isNone)
  | .model m => m.members.any (·.kept?.isNone)
  | .enum e => e.members.any (·.kept?.isNone)
  | .comments _ => true

/-- Whether a schema has loose comments. -/
def Schema.hasLoose (s : Schema) : Bool := s.declarations.any (·.hasLoose)

theorem Schema.kept_of_hasLoose {s : Schema} (h : s.hasLoose = false) : s.kept = s := by
  have hdeclaration : ∀ d ∈ s.declarations, d.kept? = some d := by
    intro d hd
    rw [hasLoose, List.any_eq_false] at h
    have hloose := h d hd
    rw [Bool.not_eq_true] at hloose
    cases d with
    | config b =>
      rw [Declaration.kept?, filterMap_eq_self (fun _ _ => ConfigMember.eq_of_kept?) hloose]
    | model m =>
      rw [Declaration.kept?, filterMap_eq_self (fun _ _ => ModelMember.eq_of_kept?) hloose]
    | enum e =>
      rw [Declaration.kept?, filterMap_eq_self (fun _ _ => EnumMember.eq_of_kept?) hloose]
    | comments b => cases hloose
  rw [kept, List.filterMap_congr hdeclaration, List.filterMap_some]

namespace Schema

variable {n : Numbering} {s : Schema}

/-- What is read from the text of a result can be obfuscated again, and what comes out is the
result without loose comments and with its environment variables numbered anew. -/
theorem exists_next_round (hs : s.Accepted) (h : s.WellSpelled) :
    ∃ p, Schema.parse (s.result n).render = .ok p ∧ p.Accepted ∧ p.WellSpelled ∧
      (p.result n).unplaced = ((s.result n).plain.numberEnv 0).1 := by
  obtain ⟨p, hp, hplain⟩ := parse_render_result (n := n) hs h
  have haccepted : p.Accepted := by
    rw [← accepted_unplaced, hplain, accepted_plain]
    exact accepted_result hs
  refine ⟨p, hp, haccepted, wellSpelled_of_parse hp, ?_⟩
  rw [unplaced_result, hplain, ← plain_result, result_result hs, plain_numberEnv]

end Schema

/-- **Repeated obfuscation stabilises.** What an obfuscation writes can be obfuscated, and what
comes out stays as it is from then on. It is what was written first, unless the first text had
loose comments or a dropped expression that reads an environment variable. -/
theorem obfuscate_stabilises {n : Numbering} {text o₁ : String} {r₁ : Registry}
    (h : obfuscate n text = .ok (o₁, r₁)) :
    ∃ o₂ r₂ r₃, obfuscate n o₁ = .ok (o₂, r₂) ∧ obfuscate n o₂ = .ok (o₂, r₃) ∧
      ∀ s, Schema.parse text = .ok s → s.hasLoose = false → s.dropsEnv = false → o₂ = o₁ := by
  obtain ⟨s, t, hs, ht, rfl⟩ := obfuscate_eq_ok.mp h
  have haccepted : s.Accepted := ((s.meets_obfuscate n).of_ok ht).1
  obtain ⟨rfl, -⟩ := Schema.eq_result_of_ok ht
  obtain ⟨p₁, hp₁, haccepted₁, hspelled₁, hunplaced₁⟩ :=
    Schema.exists_next_round (n := n) haccepted (Schema.wellSpelled_of_parse hs)
  obtain ⟨p₂, hp₂, haccepted₂, -, hunplaced₂⟩ :=
    Schema.exists_next_round (n := n) haccepted₁ hspelled₁
  obtain ⟨r₂, hr₂⟩ := Schema.obfuscate_of_accepted (n := n) haccepted₁
  obtain ⟨r₃, hr₃⟩ := Schema.obfuscate_of_accepted (n := n) haccepted₂
  have hplain : (p₁.result n).plain = ((s.result n).plain.numberEnv 0).1 := by
    rw [← Schema.plain_unplaced, hunplaced₁, Schema.plain_numberEnv, Schema.plain_plain]
  have hround : (p₂.result n).render = (p₁.result n).render := by
    rw [← Schema.render_unplaced, hunplaced₂, hplain, Schema.numberEnv_twice, ← hunplaced₁,
      Schema.render_unplaced]
  refine ⟨_, r₂, r₃, obfuscate_eq_ok.mpr ⟨p₁, _, hp₁, hr₂, rfl⟩,
    obfuscate_eq_ok.mpr ⟨p₂, _, hp₂, hr₃, hround.symm⟩, fun s' hs' hloose hdrops => ?_⟩
  cases hs.symm.trans hs'
  have hkept : (s.result n).kept = s.result n := by
    rw [Schema.kept_result, Schema.kept_of_hasLoose hloose]
  calc (p₁.result n).render
      = ((s.result n).plain.numberEnv 0).1.render := by
        rw [← Schema.render_unplaced, hunplaced₁]
    _ = (s.result n).plain.render := by
        rw [← Schema.plain_numberEnv, Schema.numberEnv_result hdrops]
    _ = ((s.result n).retouch .plain).render := by rw [Schema.plain, Schema.kept_retouch, hkept]
    _ = (s.result n).render := Schema.render_plain_retext .neutral _

-- The first variable is dropped with the expression that reads it: the second one has number one,
-- and number zero from the second run on.
example : (do
    let first ← obfuscate .global
      ("model A \x7b\n a DateTime @default(dbgenerated(env(\"X\")))\n" ++
        " b Int @default(env(\"Y\"))\n\x7d")
    let second ← obfuscate .global first.1
    return second.1 == first.1).toOption = some false := by decide +kernel

/-- A text with an environment variable that is read in a default, and no loose comments. -/
def settled : String :=
  "model User \x7b\n  id Int @default(7) // key\n" ++
  "  at DateTime @default(dbgenerated(\"now()\"))\n  host String @default(env(\"HOST\"))\n\x7d"

theorem obfuscate_stabilises_settled : ∃ o r₁ r₂,
    obfuscate .global settled = .ok (o, r₁) ∧ obfuscate .global o = .ok (o, r₂) := by
  have hok : (obfuscate .global settled).toBool = true := by decide +kernel
  have hplain : (Schema.parse settled).toOption.any
      (fun s => !s.hasLoose && !s.dropsEnv) = true := by decide +kernel
  cases h : obfuscate .global settled with
  | error e =>
    rw [h] at hok
    cases hok
  | ok q =>
    obtain ⟨s, -, hs, -⟩ := obfuscate_eq_ok.mp h
    rw [hs] at hplain
    simp only [Except.toOption, Option.any_some, Bool.and_eq_true, Bool.not_eq_true'] at hplain
    obtain ⟨o₂, r₂, -, ho₂, -, hsame⟩ := obfuscate_stabilises h
    cases hsame s hs hplain.1 hplain.2
    exact ⟨q.1, q.2, r₂, rfl, ho₂⟩

end Pseudonym

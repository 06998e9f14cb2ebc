/-
# Reading an obfuscation again

The text of an obfuscation is the text of a schema. What is read from it is
the obfuscated schema, up to spans and to comments: those that stood by
themselves are gone, and of those at the end of a line an empty one is left.
It declares as much as the schema that was obfuscated, in the same order.

Key definitions: `Declaration.measure`.
-/
import Pseudonym.Proofs.Obfuscate.Plain
import Pseudonym.Proofs.Obfuscate.Spelling
import Pseudonym.Proofs.Syntax.RoundTrip

namespace Pseudonym

/-! ### Cleared comments -/

theorem unplaced_atEnd_cleared (c : Option Comment) :
    ((c.map (·.cleared)).map (·.atEnd)).map (·.unplaced) =
      (c.map (·.cleared)).map Retouch.plain.comment := by
  cases c <;> rfl

theorem onAttribute_plain : Retouch.plain.onAttribute = Attribute.unplaced :=
  Retouch.onAttribute_unplaced

theorem ModelMember.unplaced_tidied?_retext (T : Texts) (model : String) (number : Nat)
    (member : ModelMember) : (member.retext T model number).1.tidied?.map (·.unplaced) =
      (Retouch.plain.onModelMember (member.retext T model number).1).kept? := by
  cases member with
  | field f =>
    have htype : Retouch.plain.onType f.type = f.type.unplaced := by cases f.type <;> rfl
    simp only [retext, Field.retext, tidied?, Option.map_some, unplaced, Field.unplaced,
      Retouch.onModelMember, Retouch.onField, kept?, htype, onAttribute_plain,
      unplaced_atEnd_cleared]
    rfl
  | blockAttribute a =>
    simp only [retext, tidied?, Option.map_some, unplaced, BlockAttribute.unplaced,
      Retouch.onModelMember, Retouch.onBlockAttribute, kept?, onAttribute_plain,
      unplaced_atEnd_cleared]
  | comment c => rfl

theorem EnumMember.unplaced_tidied?_cleared (member : EnumMember) :
    member.cleared.tidied?.map (·.unplaced) = (Retouch.plain.onEnumMember member.cleared).kept? := by
  cases member with
  | value v =>
    simp only [cleared, tidied?, Option.map_some, unplaced, EnumValue.unplaced,
      Retouch.onEnumMember, kept?, onAttribute_plain, unplaced_atEnd_cleared]
    rfl
  | blockAttribute a =>
    simp only [cleared, tidied?, Option.map_some, unplaced, BlockAttribute.unplaced,
      Retouch.onEnumMember, Retouch.onBlockAttribute, kept?, onAttribute_plain,
      unplaced_atEnd_cleared]
  | comment c => rfl

theorem ConfigMember.unplaced_tidied?_cleared (member : ConfigMember) :
    member.cleared.tidied?.map (·.unplaced) =
      (Retouch.plain.onConfigMember member.cleared).kept? := by
  cases member with
  | property p =>
    simp only [cleared, tidied?, Option.map_some, unplaced, Property.unplaced,
      Retouch.onConfigMember, kept?, unplaced_atEnd_cleared]
    rfl
  | comment c => rfl

theorem Declaration.unplaced_tidied?_retext (T : Texts) (d : Declaration) :
    (d.retext T).tidied?.map (·.unplaced) = (Retouch.plain.onDeclaration (d.retext T)).kept? := by
  cases d with
  | model m =>
    have hmembers : ∀ member ∈ (m.retext T).members,
        member.tidied?.map (·.unplaced) = (Retouch.plain.onModelMember member).kept? := by
      intro member hmember
      obtain ⟨member₀, -, number, rfl⟩ :=
        exists_left_of_forall₂ (forall₂_numberAlong 0 m.members) hmember
      exact member₀.unplaced_tidied?_retext T m.name.name number
    simp only [retext, tidied?, Option.map_some, unplaced, Retouch.onDeclaration, kept?,
      map_filterMap_eq hmembers]
    rfl
  | enum e =>
    have hmembers : ∀ member ∈ e.members.map (·.cleared),
        member.tidied?.map (·.unplaced) = (Retouch.plain.onEnumMember member).kept? := by
      intro member hmember
      obtain ⟨member₀, -, rfl⟩ := List.mem_map.mp hmember
      exact member₀.unplaced_tidied?_cleared
    simp only [retext, tidied?, Option.map_some, unplaced, Retouch.onDeclaration, kept?,
      map_filterMap_eq hmembers]
    rfl
  | config b =>
    have hmembers : ∀ member ∈ b.members.map (·.cleared),
        member.tidied?.map (·.unplaced) = (Retouch.plain.onConfigMember member).kept? := by
      intro member hmember
      obtain ⟨member₀, -, rfl⟩ := List.mem_map.mp hmember
      exact member₀.unplaced_tidied?_cleared
    simp only [retext, tidied?, Option.map_some, unplaced, Retouch.onDeclaration, kept?,
      map_filterMap_eq hmembers]
    rfl
  | comments b => rfl

/-- Where all comments are empty, tidying up is dropping the loose ones. -/
theorem Schema.unplaced_tidied_retext (T : Texts) (s : Schema) :
    (s.retext T).tidied.unplaced = (s.retext T).plain := by
  refine congrArg Schema.mk (map_filterMap_eq fun d hd => ?_)
  obtain ⟨d₀, -, rfl⟩ := List.mem_map.mp hd
  exact d₀.unplaced_tidied?_retext T

/-- What is written of an obfuscation can be read. -/
theorem Schema.parse_render_result {n : Numbering} {s : Schema} (hs : s.Accepted)
    (h : s.WellSpelled) :
    ∃ p, Schema.parse (s.result n).render = .ok p ∧ p.unplaced = (s.result n).plain := by
  obtain ⟨p, hp, hunplaced⟩ := parse_render_of_wellSpelled (wellSpelled_result (n := n) hs h)
  exact ⟨p, hp, hunplaced.trans (unplaced_tidied_retext .neutral _)⟩

/-! ### What is counted -/

/-- The word for a declaration, and how many fields or values it has. -/
def Declaration.measure (d : Declaration) : String × Option Nat × Option Nat :=
  (d.kind, d.model?.map (·.fields.length), d.enum?.map (·.values.length))

namespace Declaration

theorem measure_rename (ρ : Renaming) (d : Declaration) : (d.rename ρ).measure = d.measure := by
  cases d with
  | model m =>
    have hfields : (m.rename ρ).fields.length = m.fields.length :=
      length_filterMap_of_forall₂ (forall₂_map _ _) fun a b hab => by
        subst hab
        cases a <;> rfl
    simp only [rename, measure, model?, Option.map_some, hfields]
    rfl
  | enum e =>
    have hvalues : (e.rename ρ).values.length = e.values.length :=
      length_filterMap_of_forall₂ (forall₂_map _ _) fun a b hab => by
        subst hab
        cases a <;> rfl
    simp only [rename, measure, enum?, Option.map_some, hvalues]
    rfl
  | config b => rfl
  | comments b => rfl

theorem measure_retouch (R : Retouch) (d : Declaration) :
    (R.onDeclaration d).measure = d.measure := by
  cases d with
  | model m =>
    have hfields : ((m.members.map R.onModelMember).filterMap (·.field?)).length =
        m.fields.length :=
      length_filterMap_of_forall₂ (forall₂_map _ _) fun a b hab => by
        subst hab
        cases a <;> rfl
    simp only [Retouch.onDeclaration, measure, model?, Option.map_some, Model.fields, hfields]
    rfl
  | enum e =>
    have hvalues : ((e.members.map R.onEnumMember).filterMap (·.value?)).length =
        e.values.length :=
      length_filterMap_of_forall₂ (forall₂_map _ _) fun a b hab => by
        subst hab
        cases a <;> rfl
    simp only [Retouch.onDeclaration, measure, enum?, Option.map_some, Enum.values, hvalues]
    rfl
  | config b => rfl
  | comments b => rfl

theorem measure_retext (T : Texts) (d : Declaration) : (d.retext T).measure = d.measure := by
  cases d with
  | model m =>
    have hfields : (m.retext T).fields.length = m.fields.length :=
      length_filterMap_of_forall₂ (forall₂_numberAlong 0 m.members) fun a b hab => by
        obtain ⟨number, rfl⟩ := hab
        cases a <;> rfl
    simp only [retext, measure, model?, Option.map_some, hfields]
    rfl
  | enum e =>
    have hvalues : ((e.members.map (·.cleared)).filterMap (·.value?)).length = e.values.length :=
      length_filterMap_of_forall₂ (forall₂_map _ _) fun a b hab => by
        subst hab
        cases a <;> rfl
    simp only [retext, measure, enum?, Option.map_some, Enum.values, hvalues]
    rfl
  | config b => rfl
  | comments b => rfl

/-- A declaration is kept unless it is a block of comments. -/
theorem measure_kept? (d : Declaration) :
    d.kept?.map measure = if d.kind = "comment" then none else some d.measure := by
  cases d with
  | model m =>
    have hfields : (m.members.filterMap (·.kept?)).filterMap (·.field?) = m.fields := by
      rw [List.filterMap_filterMap, Model.fields]
      congr 1
      funext member
      cases member <;> rfl
    simp only [kept?, Option.map_some, measure, model?, Model.fields, hfields]
    rfl
  | enum e =>
    have hvalues : (e.members.filterMap (·.kept?)).filterMap (·.value?) = e.values := by
      rw [List.filterMap_filterMap, Enum.values]
      congr 1
      funext member
      cases member <;> rfl
    simp only [kept?, Option.map_some, measure, enum?, Enum.values, hvalues]
    rfl
  | config b => cases hk : b.kind <;> simp [kept?, measure, kind, hk, ConfigKind.word, model?, enum?]
  | comments b => rfl

end Declaration

namespace Schema

variable {n : Numbering} (s : Schema)

/-- What is counted of a schema, declaration by declaration. -/
def measures (s : Schema) : List (String × Option Nat × Option Nat) :=
  s.declarations.map (·.measure)

theorem shape_eq : s.shape = s.measures.map (·.1) := by
  rw [measures, List.map_map]
  rfl

theorem stats_eq : s.stats = ⟨(s.measures.filterMap (·.2.1)).length,
    (s.measures.filterMap (·.2.2)).length, (s.measures.filterMap (·.2.1)).sum,
    (s.measures.filterMap (·.2.2)).sum⟩ := by
  have hmodels : s.measures.filterMap (·.2.1) = s.models.map (·.fields.length) := by
    rw [measures, List.filterMap_map, models, List.map_filterMap]
    rfl
  have henums : s.measures.filterMap (·.2.2) = s.enums.map (·.values.length) := by
    rw [measures, List.filterMap_map, enums, List.map_filterMap]
    rfl
  rw [hmodels, henums, List.length_map, List.length_map, stats, List.length_flatMap,
    List.length_flatMap]

theorem measures_retouch (R : Retouch) : (s.retouch R).measures = s.measures := by
  simp only [measures, retouch, List.map_map, Function.comp_def, Declaration.measure_retouch]

theorem measures_result : (s.result n).measures = s.measures := by
  have hnumber : (s.numberEnv 0).1.measures = s.measures := by
    rw [← measures_retouch _ .blankEnv, ← measures_retouch s .blankEnv]
    exact congrArg measures (blankEnv_numberEnv 0 s)
  rw [← hnumber]
  simp only [result, measures, retext, rename, List.map_map, Function.comp_def,
    Declaration.measure_retext, Declaration.measure_rename]

theorem measures_kept : s.kept.measures = s.measures.filter (·.1 ≠ "comment") := by
  rw [measures, measures, kept, List.map_filterMap, List.filter_map, ← List.filterMap_eq_filter,
    List.map_filterMap]
  refine List.filterMap_congr fun d _ => ?_
  rw [d.measure_kept?]
  have hkind : d.measure.1 = d.kind := rfl
  by_cases h : d.kind = "comment"
  · simp [h, hkind, Option.guard]
  · simp [h, hkind, Option.guard]

theorem measures_plain : s.plain.measures = s.measures.filter (·.1 ≠ "comment") := by
  rw [plain, measures_kept, measures_retouch]

/-- Blocks of comments count only in the shape. -/
theorem stats_of_measures {p : Schema} (h : p.measures = s.measures.filter (·.1 ≠ "comment")) :
    p.shape = s.shape.filter (· ≠ "comment") ∧ p.stats = s.stats := by
  have hnone : ∀ x ∈ s.measures, x.1 = "comment" → x.2.1 = none ∧ x.2.2 = none := by
    intro x hx hcomment
    obtain ⟨d, -, rfl⟩ := List.mem_map.mp hx
    cases d with
    | config b => exact ⟨rfl, rfl⟩
    | comments b => exact ⟨rfl, rfl⟩
    | model m => exact absurd hcomment (by simp [Declaration.measure, Declaration.kind])
    | enum e => exact absurd hcomment (by simp [Declaration.measure, Declaration.kind])
  have hcount : ∀ f : String × Option Nat × Option Nat → Option Nat,
      (∀ x ∈ s.measures, x.1 = "comment" → f x = none) →
      (s.measures.filter (·.1 ≠ "comment")).filterMap f = s.measures.filterMap f := by
    intro f hf
    rw [List.filterMap_filter]
    refine List.filterMap_congr fun x hx => ?_
    by_cases hcomment : x.1 = "comment"
    · simp [hcomment, hf x hx hcomment]
    · simp [hcomment]
  constructor
  · rw [shape_eq, shape_eq, h, List.filter_map]
    rfl
  · rw [stats_eq, stats_eq, h, hcount _ fun x hx hc => (hnone x hx hc).1,
      hcount _ fun x hx hc => (hnone x hx hc).2]

end Schema

/-! ### Texts -/

/-- An obfuscation of a text goes by way of the schema that it is read as. -/
theorem obfuscate_eq_ok {n : Numbering} {text o : String} {r : Registry} :
    obfuscate n text = .ok (o, r) ↔ ∃ s t, Schema.parse text = .ok s ∧
      s.obfuscate n = .ok (t, r) ∧ o = t.render := by
  unfold obfuscate
  cases hs : Schema.parse text with
  | error e => simp [Except.mapError, bind, Except.bind]
  | ok s =>
    cases ht : s.obfuscate n with
    | error e => simp [Except.mapError, bind, Except.bind, ht]
    | ok p =>
      obtain ⟨t, r'⟩ := p
      simp [Except.mapError, bind, Except.bind, ht, eq_comm, and_comm]

/-- **An obfuscation can be read again.** What is read is the obfuscated schema without loose
comments, up to spans and with the comments at the ends of lines empty. It has the shape of the
schema that was obfuscated, blocks of comments apart, and the same counts. -/
theorem reread_obfuscate {n : Numbering} {text o : String} {r : Registry}
    (h : obfuscate n text = .ok (o, r)) :
    ∃ s t p, Schema.parse text = .ok s ∧ s.obfuscate n = .ok (t, r) ∧ Schema.parse o = .ok p ∧
      p.unplaced = t.plain ∧ p.shape = s.shape.filter (· ≠ "comment") ∧ p.stats = s.stats := by
  obtain ⟨s, t, hs, ht, rfl⟩ := obfuscate_eq_ok.mp h
  have haccepted : s.Accepted := ((s.meets_obfuscate n).of_ok ht).1
  obtain ⟨rfl, -⟩ := Schema.eq_result_of_ok ht
  obtain ⟨p, hp, hplain⟩ := Schema.parse_render_result (n := n) haccepted
    (Schema.wellSpelled_of_parse hs)
  have hmeasures : p.measures = s.measures.filter (·.1 ≠ "comment") := by
    rw [← p.measures_retouch .unplaced, Schema.retouch_unplaced, hplain, Schema.measures_plain,
      Schema.measures_result]
  obtain ⟨hshape, hstats⟩ := s.stats_of_measures hmeasures
  exact ⟨s, _, p, hs, ht, hp, hplain, hshape, hstats⟩

/-- A text with comments in all places, and with something to replace on every line. -/
def annotated : String :=
  "/// who\nmodel User \x7b\n  // key\n  id Int @default(7) /// id\n  role Role @default(ADMIN)\n" ++
  "  @@index([id], map: \"i\") //\n\x7d\nenum Role \x7b\n  ADMIN @x(env(\"A\")) // all\n\x7d"

theorem reread_obfuscate_annotated : ∃ o r, obfuscate .global annotated = .ok (o, r) ∧
    ∃ s t p, Schema.parse annotated = .ok s ∧ s.obfuscate .global = .ok (t, r) ∧
      Schema.parse o = .ok p ∧ p.unplaced = t.plain ∧ p.shape = s.shape.filter (· ≠ "comment") ∧
      p.stats = s.stats := by
  have hok : (obfuscate .global annotated).toBool = true := by decide +kernel
  cases h : obfuscate .global annotated with
  | error e =>
    rw [h] at hok
    cases hok
  | ok q => exact ⟨q.1, q.2, rfl, reread_obfuscate h⟩

end Pseudonym

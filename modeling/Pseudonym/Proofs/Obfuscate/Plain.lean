/-
# Schemas without loose comments

A comment that stands by itself, on a line of a block or between blocks, is
loose. `Schema.kept` drops the loose comments of a schema, and `Schema.plain`
forgets its spans as well and what its other comments say: each of them is an
empty comment for readers of the source. An obfuscation does not see the
difference: it can be carried out before or after.
-/
import Pseudonym.Proofs.Obfuscate.Unchanged

namespace Pseudonym

/-! ### Loose comments -/

/-- The line, unless it is a comment. -/
def ModelMember.kept? : ModelMember → Option ModelMember
  | .field f => some (.field f)
  | .blockAttribute a => some (.blockAttribute a)
  | .comment _ => none

@[inherit_doc ModelMember.kept?]
def EnumMember.kept? : EnumMember → Option EnumMember
  | .value v => some (.value v)
  | .blockAttribute a => some (.blockAttribute a)
  | .comment _ => none

@[inherit_doc ModelMember.kept?]
def ConfigMember.kept? : ConfigMember → Option ConfigMember
  | .property p => some (.property p)
  | .comment _ => none

/-- The block without loose comments, unless it is one of comments. -/
def Declaration.kept? : Declaration → Option Declaration
  | .config b => some (.config { b with members := b.members.filterMap (·.kept?) })
  | .model m => some (.model { m with members := m.members.filterMap (·.kept?) })
  | .enum e => some (.enum { e with members := e.members.filterMap (·.kept?) })
  | .comments _ => none

/-- The schema without loose comments. -/
def Schema.kept (s : Schema) : Schema := ⟨s.declarations.filterMap (·.kept?)⟩

theorem ModelMember.eq_of_kept? {a b : ModelMember} (h : a.kept? = some b) : b = a := by
  cases a <;> cases h <;> rfl

theorem EnumMember.eq_of_kept? {a b : EnumMember} (h : a.kept? = some b) : b = a := by
  cases a <;> cases h <;> rfl

theorem ConfigMember.eq_of_kept? {a b : ConfigMember} (h : a.kept? = some b) : b = a := by
  cases a <;> cases h
  rfl

/-- A walk over lines passes over those that are dropped. -/
theorem numberAlong_kept {α : Type} {drop : α → Option α} {f : Nat → α → α × Nat}
    (hsame : ∀ a b, drop a = some b → b = a)
    (hnone : ∀ n a, drop a = none → drop (f n a).1 = none ∧ (f n a).2 = n)
    (hsome : ∀ n a, drop a = some a → drop (f n a).1 = some (f n a).1) (n : Nat) (l : List α) :
    numberAlong f n (l.filterMap drop) =
      ((numberAlong f n l).1.filterMap drop, (numberAlong f n l).2) := by
  refine numberAlong_filterMap hnone (fun n a b hb => ?_) n l
  obtain rfl := hsame a b hb
  exact ⟨hsome n b hb, rfl⟩

section Kept

variable (ρ : Renaming) (R : Retouch) (T : Texts)

theorem Declaration.kept?_rename (d : Declaration) :
    (d.rename ρ).kept? = d.kept?.map (·.rename ρ) := by
  cases d with
  | model m =>
    simp only [rename, Model.rename, kept?, Option.map_some]
    rw [filterMap_map_comm fun a => by cases a <;> rfl]
  | enum e =>
    simp only [rename, Enum.rename, kept?, Option.map_some]
    rw [filterMap_map_comm fun a => by cases a <;> rfl]
  | config b => rfl
  | comments b => rfl

theorem Declaration.kept?_retouch (d : Declaration) :
    (R.onDeclaration d).kept? = d.kept?.map R.onDeclaration := by
  cases d with
  | model m =>
    simp only [Retouch.onDeclaration, kept?, Option.map_some]
    rw [filterMap_map_comm fun a => by cases a <;> rfl]
  | enum e =>
    simp only [Retouch.onDeclaration, kept?, Option.map_some]
    rw [filterMap_map_comm fun a => by cases a <;> rfl]
  | config b =>
    simp only [Retouch.onDeclaration, kept?, Option.map_some]
    rw [filterMap_map_comm fun a => by cases a <;> rfl]
  | comments b => rfl

theorem Declaration.kept?_retext (d : Declaration) :
    (d.retext T).kept? = d.kept?.map (·.retext T) := by
  cases d with
  | model m =>
    have hmembers := numberAlong_kept (f := ModelMember.retext T m.name.name)
      (fun _ _ => ModelMember.eq_of_kept?)
      (fun n a ha => by cases a <;> cases ha; exact ⟨rfl, rfl⟩)
      (fun n a ha => by cases a <;> cases ha <;> rfl) 0 m.members
    simp only [retext, Model.retext, kept?, Option.map_some, hmembers]
  | enum e =>
    simp only [retext, kept?, Option.map_some]
    rw [filterMap_map_comm fun a => by cases a <;> rfl]
  | config b =>
    simp only [retext, kept?, Option.map_some]
    rw [filterMap_map_comm fun a => by cases a <;> rfl]
  | comments b => rfl

/-- Numbers of environment variables are the same without loose comments. -/
theorem Declaration.numberEnv_kept? (n : Nat) (d d' : Declaration) (h : d.kept? = some d') :
    (d.numberEnv n).1.kept? = some (d'.numberEnv n).1 ∧ (d.numberEnv n).2 = (d'.numberEnv n).2 := by
  cases d with
  | model m =>
    cases h
    have hmembers := numberAlong_kept (f := ModelMember.numberEnv)
      (fun _ _ => ModelMember.eq_of_kept?)
      (fun n a ha => by cases a <;> cases ha; exact ⟨rfl, rfl⟩)
      (fun n a ha => by cases a <;> cases ha <;> rfl) n m.members
    simp only [numberEnv, hmembers, kept?, Prod.map, id_eq, and_self]
  | enum e =>
    cases h
    have hmembers := numberAlong_kept (f := EnumMember.numberEnv)
      (fun _ _ => EnumMember.eq_of_kept?)
      (fun n a ha => by cases a <;> cases ha; exact ⟨rfl, rfl⟩)
      (fun n a ha => by cases a <;> cases ha <;> rfl) n e.members
    simp only [numberEnv, hmembers, kept?, Prod.map, id_eq, and_self]
  | config b =>
    cases h
    have hmembers := numberAlong_kept (f := ConfigMember.numberEnv)
      (fun _ _ => ConfigMember.eq_of_kept?)
      (fun n a ha => by cases a <;> cases ha; exact ⟨rfl, rfl⟩)
      (fun n a ha => by cases a <;> cases ha; rfl) n b.members
    simp only [numberEnv, hmembers, kept?, Prod.map, id_eq, and_self]
  | comments b => cases h

end Kept

namespace Schema

variable {n : Numbering} (s : Schema)

theorem kept_rename (ρ : Renaming) : (s.rename ρ).kept = s.kept.rename ρ :=
  congrArg Schema.mk (filterMap_map_comm (Declaration.kept?_rename ρ) s.declarations)

theorem kept_retouch (R : Retouch) : (s.retouch R).kept = s.kept.retouch R :=
  congrArg Schema.mk (filterMap_map_comm (Declaration.kept?_retouch R) s.declarations)

theorem kept_retext (T : Texts) : (s.retext T).kept = s.kept.retext T :=
  congrArg Schema.mk (filterMap_map_comm (Declaration.kept?_retext T) s.declarations)

theorem kept_numberEnv (k : Nat) : (s.numberEnv k).1.kept = (s.kept.numberEnv k).1 := by
  have hwalk : numberAlong Declaration.numberEnv k (s.declarations.filterMap (·.kept?)) =
      ((numberAlong Declaration.numberEnv k s.declarations).1.filterMap (·.kept?),
        (numberAlong Declaration.numberEnv k s.declarations).2) :=
    numberAlong_filterMap (fun n d hd => by cases d <;> cases hd; exact ⟨rfl, rfl⟩)
      Declaration.numberEnv_kept? k s.declarations
  simp only [numberEnv, kept, Prod.map, hwalk]

theorem agrees_kept : s.Agrees s.kept := by
  refine Matches.of_filterMap (fun d hd => ?_) (fun d d' hd => ?_) s.declarations
  · cases d <;> cases hd
    rfl
  · cases d with
    | model m =>
      cases hd
      refine .inl (.model ⟨rfl, Matches.of_filterMap (fun member h => ?_) (fun member b h => ?_) _⟩)
      · cases member <;> cases h
        exact ⟨_, rfl⟩
      · cases member with
        | field f =>
          cases h
          exact .inl (.field ⟨rfl, rfl, rfl,
            List.forall₂_same.mpr fun _ _ => ⟨rfl, Iff.rfl, fun _ _ => Iff.rfl⟩⟩)
        | blockAttribute a =>
          cases h
          exact .inl (.blockAttribute ⟨rfl, Iff.rfl, fun _ => Iff.rfl⟩)
        | comment c => cases h
    | enum e =>
      cases hd
      refine .inl (.enum ⟨rfl, ?_⟩)
      rw [Enum.valueNames_eq, Enum.valueNames_eq, List.filterMap_filterMap]
      congr 1
      funext member
      cases member <;> rfl
    | config b =>
      cases hd
      exact .inr ⟨rfl, rfl⟩
    | comments b => cases hd

/-- Dropping loose comments before or after an obfuscation. -/
theorem kept_result : (s.result n).kept = s.kept.result n := by
  rw [result, kept_retext, kept_rename, kept_numberEnv, result, s.agrees_kept.outline]

theorem kept_kept : s.kept.kept = s.kept := by
  have hmember : ∀ a : ModelMember, a.kept?.bind (·.kept?) = a.kept? := by
    intro a
    cases a <;> rfl
  have henum : ∀ a : EnumMember, a.kept?.bind (·.kept?) = a.kept? := by
    intro a
    cases a <;> rfl
  have hconfig : ∀ a : ConfigMember, a.kept?.bind (·.kept?) = a.kept? := by
    intro a
    cases a <;> rfl
  simp only [kept, List.filterMap_filterMap]
  congr 1
  refine congrArg (List.filterMap · s.declarations) (funext fun d => ?_)
  cases d <;>
    simp only [Declaration.kept?, Option.bind_some, Option.bind_none, List.filterMap_filterMap,
      hmember, henum, hconfig]

end Schema

/-! ### Changes that numbering does not see -/

namespace Retouch

variable {R R' R'' : Retouch}

theorem unseen_onAttribute (hR : Value.Unnumbered R.value) :
    Unseen Attribute.numberEnv Attribute.numberEnv R.onAttribute := by
  intro n a
  have hargs := Argument.numberEnvEach_map (f := R.onArgument)
    (fun n a => by
      refine ⟨hR n a.value, ?_⟩
      cases a with
      | mk name value span => simp only [onArgument, Argument.mapValue, hR n value]) n a.args
  simp only [Attribute.numberEnv, onAttribute, hargs]

theorem unseen_onModelMember (hR : Value.Unnumbered R.value) :
    Unseen ModelMember.numberEnv ModelMember.numberEnv R.onModelMember := by
  intro n member
  cases member with
  | field f =>
    have hattributes := (unseen_onAttribute hR).along n f.attributes
    simp only [onModelMember, onField, ModelMember.numberEnv, Field.numberEnv, hattributes, Prod.map,
      id_eq]
  | blockAttribute a =>
    have hattr := unseen_onAttribute hR n a.attr
    simp only [onModelMember, onBlockAttribute, ModelMember.numberEnv, BlockAttribute.numberEnv,
      hattr, Prod.map, id_eq]
  | comment c => rfl

theorem unseen_onEnumMember (hR : Value.Unnumbered R.value) :
    Unseen EnumMember.numberEnv EnumMember.numberEnv R.onEnumMember := by
  intro n member
  cases member with
  | value v =>
    have hattributes := (unseen_onAttribute hR).along n v.attributes
    simp only [onEnumMember, EnumMember.numberEnv, EnumValue.numberEnv, hattributes, Prod.map, id_eq]
  | blockAttribute a =>
    have hattr := unseen_onAttribute hR n a.attr
    simp only [onEnumMember, onBlockAttribute, EnumMember.numberEnv, BlockAttribute.numberEnv,
      hattr, Prod.map, id_eq]
  | comment c => rfl

theorem unseen_onConfigMember (hR : Value.Unnumbered R.value) :
    Unseen ConfigMember.numberEnv ConfigMember.numberEnv R.onConfigMember := by
  intro n member
  cases member with
  | property p =>
    have hvalue := hR n p.value
    simp only [onConfigMember, ConfigMember.numberEnv, Property.numberEnv, hvalue, Prod.map, id_eq]
  | comment c => rfl

theorem unseen_onDeclaration (hR : Value.Unnumbered R.value) :
    Unseen Declaration.numberEnv Declaration.numberEnv R.onDeclaration := by
  intro n d
  cases d with
  | config b =>
    have hmembers := (unseen_onConfigMember hR).along n b.members
    simp only [onDeclaration, Declaration.numberEnv, hmembers, Prod.map, id_eq]
  | model m =>
    have hmembers := (unseen_onModelMember hR).along n m.members
    simp only [onDeclaration, Declaration.numberEnv, hmembers, Prod.map, id_eq]
  | enum e =>
    have hmembers := (unseen_onEnumMember hR).along n e.members
    simp only [onDeclaration, Declaration.numberEnv, hmembers, Prod.map, id_eq]
  | comments b => rfl

/-- Two changes in a row are a third where they are so on every part. -/
structure Leads (R R' R'' : Retouch) : Prop where
  ident : ∀ i, R'.ident (R.ident i) = R''.ident i
  value : ∀ v, R'.value (R.value v) = R''.value v
  comment : ∀ c, R'.comment (R.comment c) = R''.comment c
  span : ∀ x, R'.span (R.span x) = R''.span x

theorem Leads.onAttribute (h : Leads R R' R'') (a : Attribute) :
    R'.onAttribute (R.onAttribute a) = R''.onAttribute a := by
  have harg : ∀ arg, R'.onArgument (R.onArgument arg) = R''.onArgument arg := by
    intro arg
    simp only [Retouch.onArgument, Option.map_map, Function.comp_def, h.ident, h.value, h.span]
  simp only [Retouch.onAttribute, List.map_map, Function.comp_def, harg, h.ident, h.span]

theorem Leads.onModelMember (h : Leads R R' R'') (member : ModelMember) :
    R'.onModelMember (R.onModelMember member) = R''.onModelMember member := by
  cases member with
  | field f =>
    have htype : R'.onType (R.onType f.type) = R''.onType f.type := by
      cases f.type with
      | named ident => simp only [onType, h.ident]
      | _ => rfl
    simp only [Retouch.onModelMember, onField, List.map_map, Option.map_map, Function.comp_def,
      htype, h.onAttribute, h.ident, h.comment, h.span]
  | blockAttribute a =>
    simp only [Retouch.onModelMember, onBlockAttribute, Option.map_map, Function.comp_def,
      h.onAttribute, h.comment]
  | comment c => simp only [Retouch.onModelMember, h.comment]

theorem Leads.onEnumMember (h : Leads R R' R'') (member : EnumMember) :
    R'.onEnumMember (R.onEnumMember member) = R''.onEnumMember member := by
  cases member with
  | value v =>
    simp only [Retouch.onEnumMember, List.map_map, Option.map_map, Function.comp_def, h.onAttribute,
      h.ident, h.comment, h.span]
  | blockAttribute a =>
    simp only [Retouch.onEnumMember, onBlockAttribute, Option.map_map, Function.comp_def,
      h.onAttribute, h.comment]
  | comment c => simp only [Retouch.onEnumMember, h.comment]

theorem Leads.onConfigMember (h : Leads R R' R'') (member : ConfigMember) :
    R'.onConfigMember (R.onConfigMember member) = R''.onConfigMember member := by
  cases member with
  | property p =>
    simp only [Retouch.onConfigMember, Option.map_map, Function.comp_def, h.ident, h.value,
      h.comment, h.span]
  | comment c => simp only [Retouch.onConfigMember, h.comment]

theorem Leads.onDeclaration (h : Leads R R' R'') (d : Declaration) :
    R'.onDeclaration (R.onDeclaration d) = R''.onDeclaration d := by
  cases d <;>
    simp only [Retouch.onDeclaration, List.map_map, Function.comp_def, h.onConfigMember,
      h.onModelMember, h.onEnumMember, h.ident, h.comment, h.span]

/-- Forgetting spans, and what comments say. -/
def plain : Retouch :=
  { Retouch.unplaced with
    comment := fun _ => ⟨.line, "", .nowhere⟩
    comment_cleared := fun _ => rfl }

end Retouch

/-! ### Spans -/

@[simp] theorem Value.isLiteral_mapSpan (f : Span → Span) (v : Value) :
    (v.mapSpan f).isLiteral = v.isLiteral := by
  cases v <;> simp [mapSpan, isLiteral]

mutual

/-- One change of spans after another. -/
theorem Value.mapSpan_mapSpan (f g : Span → Span) : ∀ v : Value,
    (v.mapSpan f).mapSpan g = v.mapSpan fun x => g (f x)
  | .call name args => by simp only [Value.mapSpan, Argument.mapSpanEach_mapSpanEach f g args]
  | .array items => by simp only [Value.mapSpan, Value.mapSpanEach_mapSpanEach f g items]
  | .string _ | .int _ | .number _ | .boolean _ | .path _ => by simp only [Value.mapSpan]

theorem Value.mapSpanEach_mapSpanEach (f g : Span → Span) : ∀ l : List Value,
    Value.mapSpanEach g (Value.mapSpanEach f l) = Value.mapSpanEach (fun x => g (f x)) l
  | [] => rfl
  | v :: l => by
    simp only [Value.mapSpanEach, Value.mapSpan_mapSpan f g v, Value.mapSpanEach_mapSpanEach f g l]

theorem Argument.mapSpanEach_mapSpanEach (f g : Span → Span) : ∀ args : List Argument,
    Argument.mapSpanEach g (Argument.mapSpanEach f args) = Argument.mapSpanEach (fun x => g (f x)) args
  | [] => rfl
  | ⟨name, value, span⟩ :: rest => by
    simp only [Argument.mapSpanEach, Value.mapSpan_mapSpan f g value,
      Argument.mapSpanEach_mapSpanEach f g rest, Option.map_map, Function.comp_def, Ident.mapSpan]

end

mutual

/-- The environment variables of a value have the same numbers under other spans. -/
theorem Value.numberEnv_mapSpan (f : Span → Span) (n : Nat) : ∀ v : Value,
    (v.mapSpan f).numberEnv n = ((v.numberEnv n).1.mapSpan f, (v.numberEnv n).2)
  | .call name [] => by
    simp [Value.mapSpan, Argument.mapSpanEach, Value.numberEnv, Argument.numberEnvEach]
  | .call name (⟨argName, value, span⟩ :: rest) => by
    have hvalue := Value.numberEnv_mapSpan f n value
    have hrest := Argument.numberEnvEach_mapSpanEach f (value.numberEnv n).2 rest
    simp only [Value.mapSpan, Argument.mapSpanEach, Value.numberEnv, Argument.numberEnvEach,
      hvalue, hrest, Value.isLiteral_mapSpan, Value.isLiteral_numberEnv]
    split
    · simp only [Value.mapSpan, Argument.mapSpanEach]
    · simp only [Value.mapSpan, Argument.mapSpanEach]
  | .array items => by
    simp only [Value.mapSpan, Value.numberEnv, Value.numberEnvEach_mapSpanEach f n items]
  | .string _ | .int _ | .number _ | .boolean _ | .path _ => by
    simp only [Value.mapSpan, Value.numberEnv]

theorem Value.numberEnvEach_mapSpanEach (f : Span → Span) (n : Nat) : ∀ l : List Value,
    Value.numberEnvEach n (Value.mapSpanEach f l) =
      (Value.mapSpanEach f (Value.numberEnvEach n l).1, (Value.numberEnvEach n l).2)
  | [] => rfl
  | v :: l => by
    simp only [Value.mapSpanEach, Value.numberEnvEach, Value.numberEnv_mapSpan f n v,
      Value.numberEnvEach_mapSpanEach f _ l]

theorem Argument.numberEnvEach_mapSpanEach (f : Span → Span) (n : Nat) : ∀ args : List Argument,
    Argument.numberEnvEach n (Argument.mapSpanEach f args) =
      (Argument.mapSpanEach f (Argument.numberEnvEach n args).1, (Argument.numberEnvEach n args).2)
  | [] => rfl
  | ⟨name, value, span⟩ :: rest => by
    simp only [Argument.mapSpanEach, Argument.numberEnvEach, Value.numberEnv_mapSpan f n value,
      Argument.numberEnvEach_mapSpanEach f _ rest]

end

namespace Schema

variable {n : Numbering} {R : Retouch} (s : Schema)

theorem retouch_numberEnv (hR : Value.Unnumbered R.value) (k : Nat) :
    (s.numberEnv k).1.retouch R = ((s.retouch R).numberEnv k).1 := by
  have hwalk := (Retouch.unseen_onDeclaration hR).along k s.declarations
  simp only [numberEnv, retouch, hwalk, Prod.map]

theorem envCount_retouch (hR : Value.Unnumbered R.value) (k : Nat) :
    ((s.retouch R).numberEnv k).2 = (s.numberEnv k).2 := by
  have hwalk := (Retouch.unseen_onDeclaration hR).along k s.declarations
  simp only [numberEnv, retouch, hwalk, Prod.map, id]

/-- A change of spans and comments, before and after an obfuscation. -/
theorem retouch_result (hR : Value.Unnumbered R.value) :
    (s.result n).retouch R = (s.retouch R).result n := by
  rw [result, ← retouch_retext, ← retouch_rename, retouch_numberEnv s hR, result,
    (agrees_retouch R s).outline]

theorem unplaced_result : (s.result n).unplaced = s.unplaced.result n := by
  rw [← retouch_unplaced, ← retouch_unplaced,
    s.retouch_result (R := .unplaced) (Value.numberEnv_mapSpan _)]

theorem accepted_unplaced : s.unplaced.Accepted ↔ s.Accepted := by
  rw [← retouch_unplaced]
  exact (agrees_retouch .unplaced s).accepted

/-- The schema without spans and without loose comments, in which all other comments are empty
ones for readers of the source. -/
def plain (s : Schema) : Schema := (s.retouch .plain).kept

theorem plain_result : (s.result n).plain = s.plain.result n := by
  rw [plain, s.retouch_result (R := .plain) (Value.numberEnv_mapSpan _), kept_result, plain]

theorem plain_numberEnv (k : Nat) : (s.numberEnv k).1.plain = (s.plain.numberEnv k).1 := by
  rw [plain, s.retouch_numberEnv (R := .plain) (Value.numberEnv_mapSpan _), kept_numberEnv, plain]

theorem accepted_plain : s.plain.Accepted ↔ s.Accepted :=
  (agrees_kept _).accepted.trans (agrees_retouch .plain s).accepted

theorem plain_unplaced : s.unplaced.plain = s.plain := by
  have hleads : Retouch.Leads .unplaced .plain .plain :=
    ⟨fun _ => rfl, Value.mapSpan_mapSpan _ _, fun _ => rfl, fun _ => rfl⟩
  rw [← retouch_unplaced, plain, plain, retouch, retouch, retouch, List.map_map]
  exact congrArg (fun ds => (Schema.mk ds).kept)
    (List.map_congr_left fun d _ => hleads.onDeclaration d)

theorem plain_plain : s.plain.plain = s.plain := by
  have hleads : Retouch.Leads .plain .plain .plain :=
    ⟨fun _ => rfl, Value.mapSpan_mapSpan _ _, fun _ => rfl, fun _ => rfl⟩
  have htwice : (s.retouch .plain).retouch .plain = s.retouch .plain := by
    rw [retouch, retouch, List.map_map]
    exact congrArg Schema.mk (List.map_congr_left fun d _ => hleads.onDeclaration d)
  rw [plain, plain, ← kept_retouch, kept_kept, htwice]

end Schema

end Pseudonym

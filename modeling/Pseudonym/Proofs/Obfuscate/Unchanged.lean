/-
# What an obfuscation leaves unchanged

An obfuscation changes names, texts and the names of environment variables,
each only where it stands for one. `Schema.masked` blanks all these places and
keeps everything else: the declarations, members, attributes and arguments in
their order, their kinds, spans and modifiers, types that are not declared,
the names and properties of blocks of configuration, and the names of
attributes and arguments. A schema and its obfuscation look the same behind
the mask, and the texts of an obfuscation are the neutral ones: they would not
change again.

Key definitions: `Renaming.blank`, `Schema.blankEnv`, `Schema.masked`.
-/
import Pseudonym.Proofs.Obfuscate.Result
import Pseudonym.Proofs.Obfuscate.Retouch
import Pseudonym.Proofs.Obfuscate.Words

namespace Pseudonym

/-! ### The names of environment variables -/

/-- Blanks the names of environment variables in a schema. -/
def Schema.blankEnv (s : Schema) : Schema := s.retouch .blankEnv

/-- What a walk changes in every item is not seen after the items are blanked. -/
theorem map_numberAlong {α β : Type} {f : Nat → α → α × Nat} {b : α → β}
    (hb : ∀ n a, b (f n a).1 = b a) (n : Nat) (l : List α) :
    (numberAlong f n l).1.map b = l.map b :=
  map_eq_of_forall₂ ((forall₂_numberAlong n l).imp fun a c hc => by
    obtain ⟨m, rfl⟩ := hc
    exact hb m a)

theorem Attribute.blankEnv_numberEnv (n : Nat) (a : Attribute) :
    (a.numberEnv n).1.blankEnv = a.blankEnv := by
  simp only [numberEnv, blankEnv, mapArgs, Argument.blankEnvEach_numberEnvEach]

namespace Retouch

theorem blankEnv_onModelMember (n : Nat) (member : ModelMember) :
    Retouch.blankEnv.onModelMember (member.numberEnv n).1 =
      Retouch.blankEnv.onModelMember member := by
  cases member with
  | field f =>
    simp only [ModelMember.numberEnv, Field.numberEnv, onModelMember, onField, Prod.map,
      onAttribute_blankEnv, map_numberAlong Attribute.blankEnv_numberEnv]
  | blockAttribute a =>
    simp only [ModelMember.numberEnv, BlockAttribute.numberEnv, onModelMember, onBlockAttribute,
      Prod.map, onAttribute_blankEnv, Attribute.blankEnv_numberEnv]
  | comment c => rfl

theorem blankEnv_onEnumMember (n : Nat) (member : EnumMember) :
    Retouch.blankEnv.onEnumMember (member.numberEnv n).1 =
      Retouch.blankEnv.onEnumMember member := by
  cases member with
  | value v =>
    simp only [EnumMember.numberEnv, EnumValue.numberEnv, onEnumMember, Prod.map,
      onAttribute_blankEnv, map_numberAlong Attribute.blankEnv_numberEnv]
  | blockAttribute a =>
    simp only [EnumMember.numberEnv, BlockAttribute.numberEnv, onEnumMember, onBlockAttribute,
      Prod.map, onAttribute_blankEnv, Attribute.blankEnv_numberEnv]
  | comment c => rfl

theorem blankEnv_onConfigMember (n : Nat) (member : ConfigMember) :
    Retouch.blankEnv.onConfigMember (member.numberEnv n).1 =
      Retouch.blankEnv.onConfigMember member := by
  cases member with
  | property p =>
    have hvalue : Retouch.blankEnv.value (p.value.numberEnv n).1 = Retouch.blankEnv.value p.value :=
      Value.blankEnv_numberEnv n p.value
    simp only [ConfigMember.numberEnv, Property.numberEnv, onConfigMember, Prod.map, hvalue]
  | comment c => rfl

theorem blankEnv_onDeclaration (n : Nat) (d : Declaration) :
    Retouch.blankEnv.onDeclaration (d.numberEnv n).1 = Retouch.blankEnv.onDeclaration d := by
  cases d with
  | config b =>
    simp only [Declaration.numberEnv, onDeclaration, Prod.map,
      map_numberAlong blankEnv_onConfigMember]
  | model m =>
    simp only [Declaration.numberEnv, onDeclaration, Prod.map,
      map_numberAlong blankEnv_onModelMember]
  | enum e =>
    simp only [Declaration.numberEnv, onDeclaration, Prod.map,
      map_numberAlong blankEnv_onEnumMember]
  | comments b => rfl

end Retouch

namespace Schema

variable {n : Numbering} {s t : Schema} {r : Registry}

theorem blankEnv_numberEnv (k : Nat) (s : Schema) : (s.numberEnv k).1.blankEnv = s.blankEnv := by
  simp only [numberEnv, blankEnv, retouch, Prod.map, map_numberAlong Retouch.blankEnv_onDeclaration]

/-- Numbering environment variables does not touch what is declared. -/
theorem outline_numberEnv (k : Nat) (s : Schema) :
    (s.numberEnv k).1.outline n = s.outline n := by
  have h := congrArg (outline n) (blankEnv_numberEnv k s)
  rwa [blankEnv, blankEnv, (agrees_retouch _ _).outline, (agrees_retouch _ _).outline] at h

/-- Numbering environment variables does not touch what is referred to. -/
theorem accepted_numberEnv (k : Nat) (s : Schema) : (s.numberEnv k).1.Accepted ↔ s.Accepted := by
  have h := congrArg Accepted (blankEnv_numberEnv k s)
  rwa [blankEnv, blankEnv, (agrees_retouch _ _).accepted, (agrees_retouch _ _).accepted,
    eq_iff_iff] at h

theorem rename_numberEnv (ρ : Renaming) (k : Nat) (s : Schema) :
    (s.numberEnv k).1.rename ρ = ((s.rename ρ).numberEnv k).1 :=
  (congrArg Prod.fst (unseen_rename ρ k s)).symm

end Schema

/-! ### Neutral texts -/

theorem IsWord.not_mem_point {w : String} (h : IsWord w) : '.' ∉ w.toList := by
  intro hmem
  have hchar := List.all_eq_true.mp (all_isNameChar_of_isName h.isName) _ hmem
  revert hchar
  decide

/-- The name of a unique key keeps its form when it is replaced again. -/
theorem Attribute.uniqueKeyName_twice {model field : String} (hmodel : IsWord model)
    (hfield : IsWord field) (model' field' old : String) :
    uniqueKeyName model' field' (uniqueKeyName model field old) =
      uniqueKeyName model' field' old := by
  have hm := hmodel.not_mem_point
  have hf := hfield.not_mem_point
  by_cases hold : '.' ∈ old.toList
  · simp [uniqueKeyName, hold, toString]
  · simp [uniqueKeyName, hold, hm, hf, toString]

theorem Field.absorbs_neutral {f : Field} {model : String} (hmodel : IsWord model)
    (hfield : IsWord f.name.name) : f.Absorbs .neutral .neutral model := by
  intro model' field'
  refine ⟨fun v => ?_, rfl, Attribute.uniqueKeyName_twice hmodel hfield model' field'⟩
  show (f.type.scalar?.bind FieldSite.placeholder?).getD
      ((f.type.scalar?.bind FieldSite.placeholder?).getD v) =
    (f.type.scalar?.bind FieldSite.placeholder?).getD v
  cases f.type.scalar?.bind FieldSite.placeholder? <;> rfl

namespace Schema

variable {n : Numbering} {s t : Schema} {r : Registry}

/-- The neutral texts of an obfuscation stay when it is renamed and they are replaced again. -/
theorem retext_rename_neutral (hs : s.Accepted) (ρ : Renaming) :
    (((s.rename (s.outline n).newNames).retext .neutral).rename ρ).retext .neutral =
      ((s.rename (s.outline n).newNames).rename ρ).retext .neutral := by
  refine retext_rename_retext fun m hm f hf => ?_
  obtain ⟨d, hd, hmodel⟩ := List.mem_filterMap.mp hm
  obtain ⟨d₀, hd₀, rfl⟩ := List.mem_map.mp hd
  cases d₀ with
  | model m₀ =>
    cases hmodel
    have hm₀ : m₀ ∈ s.models := List.mem_filterMap.mpr ⟨_, hd₀, rfl⟩
    obtain ⟨member, hmember, hfield⟩ := List.mem_filterMap.mp hf
    obtain ⟨member₀, hmember₀, rfl⟩ := List.mem_map.mp hmember
    cases member₀ with
    | field f₀ =>
      cases hfield
      have hname : f₀.name.name ∈ m₀.keyNames := Model.mem_keyNames.mpr
        (List.mem_flatMap.mpr ⟨_, hmember₀, List.mem_singleton.mpr rfl⟩)
      refine Field.absorbs_neutral ?_ ?_
      · show IsWord ((s.outline n).newNames.type m₀.name.name)
        rw [newNames_type_model hm₀]
        exact isWord_modelName _
      · show IsWord ((s.outline n).newNames.field m₀.name.name f₀.name.name)
        rw [newNames_field hs.types hm₀ hname]
        exact isWord_fieldName _
    | blockAttribute a => cases hfield
    | comment c => cases hfield
  | enum e => cases hmodel
  | config b => cases hmodel
  | comments b => cases hmodel

theorem retext_rename_result (hs : s.Accepted) (ρ : Renaming) :
    ((s.result n).rename ρ).retext .neutral =
      (((s.numberEnv 0).1.rename (s.outline n).newNames).rename ρ).retext .neutral := by
  rw [result, ← outline_numberEnv 0 s,
    retext_rename_neutral ((accepted_numberEnv 0 s).mpr hs)]

/-- The texts of a result are neutral. -/
theorem retext_result (hs : s.Accepted) : (s.result n).retext .neutral = s.result n := by
  have h := retext_rename_result (n := n) hs .same
  rwa [rename_same, rename_same] at h

end Schema

/-! ### The mask -/

/-- The renaming after which no name can be told from another. -/
def Renaming.blank : Renaming where
  type _ := ""
  field _ _ := ""
  value _ _ := ""
  relation _ _ := ""

/-- The schema with every place blanked that an obfuscation may change. -/
def Schema.masked (s : Schema) : Schema := ((s.rename .blank).retext .blank).blankEnv

/-- Blank texts leave nothing to see of neutral ones. -/
theorem Field.absorbs_blank (model : String) (f : Field) : f.Absorbs .blank .neutral model := by
  intro model' field'
  refine ⟨fun v => ?_, rfl, fun _ => rfl⟩
  show ((f.type.scalar?.bind FieldSite.placeholder?).map fun _ => Value.string "").getD
      ((f.type.scalar?.bind FieldSite.placeholder?).getD v) =
    ((f.type.scalar?.bind FieldSite.placeholder?).map fun _ => Value.string "").getD v
  cases f.type.scalar?.bind FieldSite.placeholder? <;> rfl

namespace Schema

variable {n : Numbering} {s t : Schema} {r : Registry}

/-- Names leave no trace behind the mask. -/
theorem rename_blank (hs : s.Accepted) :
    (s.rename (s.outline n).newNames).rename .blank = s.rename .blank := by
  refine rename_rename hs ⟨fun x _ hx h => hx ?_, ?_, ?_, ?_, ?_⟩
  · exact (s.outline n).newNames_faithful.builtin x h
  all_goals intros; rfl

/-- Behind blanks, neither the numbers of environment variables nor neutral texts show. -/
theorem blanks_result (σ : Renaming) (s : Schema) :
    (((s.result n).rename σ).retext .blank).blankEnv =
      (((s.rename (s.outline n).newNames).rename σ).retext .blank).blankEnv := by
  rw [result, retext_rename_retext fun m _ f _ => f.absorbs_blank m.name.name, rename_numberEnv,
    rename_numberEnv]
  simp only [blankEnv, ← retouch_retext]
  exact congrArg (retext .blank) (blankEnv_numberEnv 0 _)

/-- **Nothing else changes.** Behind the mask a schema and its obfuscation are the same, and the
texts of the obfuscation are neutral. -/
theorem masked_obfuscate (h : s.obfuscate n = .ok (t, r)) :
    t.masked = s.masked ∧ t.retext .neutral = t := by
  have hs : s.Accepted := ((s.meets_obfuscate n).of_ok h).1
  obtain ⟨rfl, -⟩ := eq_result_of_ok h
  exact ⟨by rw [masked, masked, blanks_result, rename_blank hs], retext_result hs⟩

/-- Orders in a database that is reached under a name of the environment, with texts at every
place that has one. -/
def orders : Schema :=
  let here : Span := ⟨0, 0, 1⟩
  let note : Comment := ⟨.doc, "since 2019", here⟩
  let named (name : String) (value : Value) : Argument := ⟨some ⟨name, here⟩, value, here⟩
  let env : Value := .call "env" [⟨none, .string "ORDERS_URL", here⟩]
  ⟨[.comments ⟨[note], here⟩,
    .config ⟨.datasource, ⟨"db", here⟩, [.comment note,
      .property ⟨⟨"url", here⟩, env, some note, here⟩], here⟩,
    .model ⟨⟨"Order", here⟩, [.comment note,
      .field ⟨⟨"amount", here⟩, .scalar .int, .required,
        [⟨⟨"default", here⟩, [⟨none, .int 12, here⟩], here⟩,
          ⟨⟨"unique", here⟩, [named "map" (.string "orders.amount")], here⟩], some note, here⟩,
      .field ⟨⟨"placed", here⟩, .scalar .dateTime, .optional,
        [⟨⟨"default", here⟩, [⟨none, .call "dbgenerated" [⟨none, env, here⟩], here⟩], here⟩,
          ⟨⟨"db.Timestamp", here⟩, [⟨none, .int 6, here⟩], here⟩], none, here⟩,
      .field ⟨⟨"raw", here⟩, .unsupported "tsvector", .list, [], none, here⟩,
      .blockAttribute ⟨⟨⟨"index", here⟩, [⟨none, .array [.path ["placed"]], here⟩,
        named "map" (.string "orders_by_time")], here⟩, some note⟩], here⟩]⟩

theorem masked_obfuscate_orders : ∃ t r, orders.obfuscate .perEnum = .ok (t, r) ∧
    t.masked = orders.masked ∧ t.retext .neutral = t := by
  have hok : (orders.obfuscate .perEnum).toBool = true := by decide +kernel
  cases h : orders.obfuscate .perEnum with
  | error e =>
    rw [h] at hok
    cases hok
  | ok p => exact ⟨p.1, p.2, rfl, masked_obfuscate h⟩

end Schema

end Pseudonym

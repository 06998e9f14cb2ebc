/-
# The parts of a result

A result has the parts of the schema it comes from, in the same order: every
model, every field and every attribute of a field is made of the one at its
place, by itself. What is not seen from the part alone is only how many
environment variables come before it, and that number shows in nothing but the
names of such variables.

So what is to be shown of the attributes of all fields is shown of one
attribute (`Attribute.result`), and then holds of the schema part by part.
-/
import Pseudonym.Proofs.Obfuscate.Canonical
import Pseudonym.Proofs.Obfuscate.FieldLists

namespace Pseudonym

variable (ρ : Renaming) (model : String) (e : Nat)

/-! ### Fields -/

namespace Attribute

/-- What an obfuscation makes of an attribute of a field, if `e` variables come before it. -/
def result (type : FieldType) (w : FieldTexts) (a : Attribute) : Attribute :=
  (((a.numberEnv e).1.renameDeclared ρ model).renameReferences ρ model type).retextOnField w

variable {ρ model e} {type : FieldType} {w : FieldTexts} {a : Attribute}

theorem name_result : (a.result ρ model e type w).name = a.name := by
  have hdeclared : ∀ b : Attribute, (b.renameDeclared ρ model).name = b.name := by
    intro b
    unfold renameDeclared
    split <;> rfl
  have hreferences : ∀ b : Attribute, (b.renameReferences ρ model type).name = b.name := by
    intro b
    unfold renameReferences
    split
    · rfl
    · split <;> rfl
  have htexts : ∀ b : Attribute, (b.retextOnField w).name = b.name := by
    intro b
    unfold retextOnField
    split
    · rfl
    · split
      · rfl
      · split <;> rfl
  rw [result, htexts, hreferences, hdeclared]
  rfl

/-- A default: its first argument is changed. -/
theorem args_result_default (h : a.is "default" = true) : (a.result ρ model e type w).args =
    Argument.mapHead (fun v => (v.renameDefault (type.scope ρ.value)).retextDefault w)
      (Argument.numberEnvEach e a.args).1 := by
  have hnumbered : (a.numberEnv e).1.is "default" = true := h
  have hrelation : ¬(a.numberEnv e).1.is "relation" = true := by
    rw [is_of_ne hnumbered (by decide)]
    exact Bool.false_ne_true
  rw [result, renameDeclared_of_not_relation hrelation, renameReferences, if_pos hnumbered,
    retextOnField_of_default (by rw [mapArgs_is, hnumbered])]
  show Argument.mapHead _ (Argument.mapHead _ (Argument.numberEnvEach e a.args).1) = _
  cases (Argument.numberEnvEach e a.args).1 with
  | nil => rfl
  | cons first rest => rfl

/-- A unique key: all arguments that give it a name are changed. -/
theorem args_result_unique (h : a.is "unique" = true) : (a.result ρ model e type w).args =
    (Argument.numberEnvEach e a.args).1.map fun arg =>
      if arg.isNamed "map" then arg.mapValue (.mapString w.uniqueKey) else arg := by
  have hnumbered : (a.numberEnv e).1.is "unique" = true := h
  have hrelation : ¬(a.numberEnv e).1.is "relation" = true := by
    rw [is_of_ne hnumbered (by decide)]
    exact Bool.false_ne_true
  rw [result, renameDeclared_of_not_relation hrelation, renameReferences_of_unique hnumbered,
    retextOnField_of_unique hnumbered]
  rfl

variable (ρ model e type w) in
/-- A relation: what names it and its lists is renamed, and the first argument that names the
foreign key is changed. -/
theorem args_result_relation (h : a.is "relation" = true) : ∃ declares,
    (a.result ρ model e type w).args =
      Argument.mapFirst (·.isNamed "map") (.mapString fun _ => w.foreignKey)
        (renameRelationArgs ρ model type declares
          (if declares then Argument.mapFirst namesRelation (.mapString (ρ.relation model))
            (Argument.numberEnvEach e a.args).1 else (Argument.numberEnvEach e a.args).1)) := by
  have hnumbered : (a.numberEnv e).1.is "relation" = true := h
  have hdeclared : ((a.numberEnv e).1.renameDeclared ρ model).is "relation" = true := by
    rw [renameDeclared_is, hnumbered]
  refine ⟨a.declaresRelation, ?_⟩
  rw [result, retextOnField_of_relation (by rw [renameReferences_is, hdeclared]),
    renameReferences_of_relation hdeclared, renameDeclared, hnumbered, Bool.true_and,
    numberEnv_declaresRelation]
  by_cases hd : a.declaresRelation = true
  · rw [if_pos hd, declaresRelation_mapFirst, numberEnv_declaresRelation, hd]
    rfl
  · rw [if_neg hd, numberEnv_declaresRelation]
    rw [Bool.not_eq_true] at hd
    rw [hd]
    rfl

end Attribute

/-- What an obfuscation makes of a field. -/
def Field.result (f : Field) : Field :=
  (((f.numberEnv e).1.renameDeclared ρ model).renameReferences ρ model).retext .neutral
    (ρ.type model)

/-- The texts around a field in the result. -/
def Field.newTexts (f : Field) : FieldTexts :=
  Texts.neutral.around (ρ.type model) (ρ.field model f.name.name) f.type

theorem Field.name_result (f : Field) :
    (f.result ρ model e).name.name = ρ.field model f.name.name := rfl

theorem Field.forall₂_attributes_result (f : Field) : List.Forall₂
    (fun a b => ∃ k, b = Attribute.result ρ model k f.type (f.newTexts ρ model) a)
    f.attributes (f.result ρ model e).attributes := by
  have hmap : (f.result ρ model e).attributes =
      (numberAlong Attribute.numberEnv e f.attributes).1.map fun a =>
        ((a.renameDeclared ρ model).renameReferences ρ model f.type).retextOnField
          (f.newTexts ρ model) := by
    simp only [result, retext, renameReferences, renameDeclared, List.map_map, Function.comp_def,
      Texts.around_rename]
    rfl
  rw [hmap, List.forall₂_map_right_iff]
  refine (forall₂_numberAlong e f.attributes).imp ?_
  rintro a _ ⟨k, rfl⟩
  exact ⟨k, rfl⟩

/-! ### Models -/

namespace Model

theorem forall₂_members_result (m : Model) : List.Forall₂
    (fun member member' => ∃ k i, member' = ModelMember.result ρ m.name.name k i member)
    m.members ((m.renamed ρ e).retext .neutral).members := by
  have hrenamed : List.Forall₂ (fun member member' => ∃ k, member' =
      (((member.numberEnv k).1.renameDeclared ρ m.name.name).renameReferences ρ m.name.name))
      m.members (m.renamed ρ e).members := by
    rw [renamed, rename, List.forall₂_map_right_iff]
    refine (forall₂_numberAlong e m.members).imp ?_
    rintro member _ ⟨k, rfl⟩
    exact ⟨k, rfl⟩
  refine (forall₂_trans hrenamed (forall₂_numberAlong 0 (m.renamed ρ e).members)).imp ?_
  rintro member _ ⟨_, ⟨k, rfl⟩, i, rfl⟩
  exact ⟨k, i, rfl⟩

theorem forall₂_fields_result (m : Model) : List.Forall₂
    (fun f g => ∃ k, g = Field.result ρ m.name.name k f)
    m.fields ((m.renamed ρ e).retext .neutral).fields := by
  refine forall₂_filterMap (m.forall₂_members_result ρ e) ?_
  rintro member _ ⟨k, i, rfl⟩
  cases member with
  | field f => exact .inr ⟨f, _, rfl, rfl, k, rfl⟩
  | blockAttribute a => exact .inl ⟨rfl, rfl⟩
  | comment c => exact .inl ⟨rfl, rfl⟩

end Model

/-! ### Schemas -/

/-- The models of a schema that can be obfuscated, beside those of the result. -/
theorem Schema.parts_of_ok {n : Numbering} {s t : Schema} {r : Registry}
    (h : s.obfuscate n = .ok (t, r)) : s.Accepted ∧ Bound n s t ∧ List.Forall₂
      (fun m m' => m ∈ s.models ∧ Model.Bound n s m m' ∧
        List.Forall₂ (fun f g => ∃ k, g = Field.result (s.outline n).newNames m.name.name k f)
          m.fields m'.fields) s.models t.models := by
  obtain ⟨haccepted, hbound⟩ := (s.meets_obfuscate n).of_ok h
  obtain ⟨rfl, -⟩ := eq_result_of_ok h
  refine ⟨haccepted, hbound, (forall₂_both hbound.models (models_result n s)).imp ?_⟩
  rintro m _ ⟨⟨hm, hb⟩, k, rfl⟩
  exact ⟨hm, hb, m.forall₂_fields_result _ k⟩

end Pseudonym

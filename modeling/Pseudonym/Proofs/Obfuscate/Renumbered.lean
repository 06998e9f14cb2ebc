/-
# Declarations under other numbers

A renumbering is applied to a declaration of an obfuscated schema at the
places where an obfuscation writes numbered names: the names of models and
enums, the types of fields, the names of relations, the names that unique keys
and indexes have in the database, and the names of environment variables. The
names of fields and values, which count within their block, stay.

A declaration can be renumbered before its texts are made neutral or after,
since these texts begin with the name of the model.
-/
import Pseudonym.Proofs.Names.Renumbering
import Pseudonym.Proofs.Obfuscate.MappedEnv
import Pseudonym.Proofs.Obfuscate.RenamedTwice

namespace Pseudonym

/-! ### Renumbering a declaration -/

namespace Attribute

/-- Changes the name that the unique key of a field has in the database. -/
def mapKeyText (g : String → String) (a : Attribute) : Attribute :=
  if a.is "unique" then
    a.mapArgs (.map fun arg => if arg.isNamed "map" then arg.mapValue (.mapString g) else arg)
  else a

/-- Changes the name in the second argument. -/
def mapSecond (g : String → String) : List Argument → List Argument
  | first :: second :: rest =>
    first :: (if second.isNamed "map" then second.mapValue (.mapString g) else second) :: rest
  | args => args

/-- Changes the name of an index. -/
def mapIndexText (g : String → String) (a : Attribute) : Attribute :=
  if a.is "index" then a.mapArgs (mapSecond g) else a

end Attribute

/-- Changes the names that the keys on a line of a model have in the database. -/
def ModelMember.mapKeyTexts (g : String → String) : ModelMember → ModelMember
  | .field f => .field { f with attributes := f.attributes.map (·.mapKeyText g) }
  | .blockAttribute a => .blockAttribute { a with attr := a.attr.mapIndexText g }
  | .comment c => .comment c

/-- Changes the names that the keys of a declaration have in the database. -/
def Declaration.mapKeyTexts (g : String → String) : Declaration → Declaration
  | .model m => .model { m with members := m.members.map (·.mapKeyTexts g) }
  | .enum e => .enum e
  | .config b => .config b
  | .comments b => .comments b

/-- Names that carry the number of a model or an enum get the other number. -/
def Renumbering.toRenaming (x : Renumbering) : Renaming where
  type := x.name
  field _ := id
  value _ := id
  relation _ := x.name

namespace Renumbering

variable (x : Renumbering) (block : String)

theorem toRenaming_type : x.toRenaming.type = x.name := by rw [toRenaming]

theorem toRenaming_field : x.toRenaming.field block = id := by rw [toRenaming]

theorem toRenaming_value : x.toRenaming.value block = id := by rw [toRenaming]

theorem toRenaming_relation : x.toRenaming.relation block = x.name := by rw [toRenaming]

end Renumbering

/-- Replaces the numbers of models, enums and environment variables in a declaration. -/
def Declaration.renumber (x : Renumbering) (d : Declaration) : Declaration :=
  (((Retouch.mapEnv x.envName).onDeclaration d).rename x.toRenaming).mapKeyTexts x.name

/-! ### Texts that begin with the name of a model -/

section Texts

variable (x : Renumbering) (k : Nat)

theorem Renumbering.name_uniqueKeyName (field old : String) :
    x.name (Attribute.uniqueKeyName (modelName k) field old) =
      Attribute.uniqueKeyName (modelName (x.model k)) field old := by
  have hparts : ∀ j, Attribute.uniqueKeyName (modelName j) field old = modelName j ++
      ((if old.toList.contains '.' then "." else "_") ++ (field ++ "_unique")) := by
    intro j
    unfold Attribute.uniqueKeyName
    split <;> simp [toString, String.append_assoc]
  rw [hparts, hparts, x.name_modelName_append k]
  rw [String.toList_append]
  split <;> exact endsNumber_cons (by decide) _

theorem Renumbering.name_index (number : Nat) :
    x.name (Texts.neutral.index (modelName k) number) =
      Texts.neutral.index (modelName (x.model k)) number := by
  have hparts : ∀ j, Texts.neutral.index (modelName j) number =
      modelName j ++ ("_index_" ++ toString number) := by
    intro j
    simp [Texts.neutral, toString, String.append_assoc]
  rw [hparts, hparts, x.name_modelName_append k]
  rw [String.toList_append]
  exact endsNumber_cons (by decide) _

/-- A default value is replaced without a look at the name of the model. -/
theorem Value.retextDefault_around (model model' field : String) (type : FieldType) (v : Value) :
    v.retextDefault (Texts.neutral.around model field type) =
      v.retextDefault (Texts.neutral.around model' field type) := by
  have hitem : ∀ v : Value, v.retextItem (Texts.neutral.around model field type) =
      v.retextItem (Texts.neutral.around model' field type) := by
    intro v
    cases v <;> rfl
  cases v with
  | array items => exact congrArg Value.array (List.map_congr_left fun item _ => hitem item)
  | _ => exact hitem _

namespace Attribute

theorem mapKeyText_retextOnField (field : String) (type : FieldType) (a : Attribute) :
    (a.retextOnField (Texts.neutral.around (modelName k) field type)).mapKeyText x.name =
      a.retextOnField (Texts.neutral.around (modelName (x.model k)) field type) := by
  by_cases hu : a.is "unique" = true
  · rw [mapKeyText, retextOnField_is, if_pos hu, retextOnField_of_unique hu,
      retextOnField_of_unique hu]
    show { a with args := _ } = { a with args := _ }
    rw [mapArgs_args, List.map_map]
    congr 1
    refine List.map_congr_left fun arg _ => ?_
    rw [Function.comp_apply]
    by_cases hm : arg.isNamed "map" = true
    · have hkey : ∀ old, x.name ((Texts.neutral.around (modelName k) field type).uniqueKey old) =
          (Texts.neutral.around (modelName (x.model k)) field type).uniqueKey old :=
        x.name_uniqueKeyName k field
      simp only [hm, ↓reduceIte, Argument.mapValue_isNamed, Argument.mapValue_mapValue,
        Value.mapString_mapString, hkey]
    · simp only [hm, Bool.false_eq_true, ↓reduceIte]
  · -- the other texts around a field have no part of the model's name
    have hdefault :=
      funext (Value.retextDefault_around (modelName k) (modelName (x.model k)) field type)
    rw [mapKeyText, retextOnField_is, if_neg hu]
    simp only [retextOnField, hu, Bool.false_eq_true, ↓reduceIte, hdefault]
    simp only [Texts.around]

theorem mapIndexText_retextIndex (number : Nat) (a : Attribute) :
    (a.retextIndex (Texts.neutral.index (modelName k) number)).mapIndexText x.name =
      a.retextIndex (Texts.neutral.index (modelName (x.model k)) number) := by
  by_cases h : a.is "index" = true
  · simp only [mapIndexText, retextIndex, h, ↓reduceIte, mapArgs_is]
    show { a with args := _ } = { a with args := _ }
    rw [mapArgs_args]
    rcases a.args with _ | ⟨first, _ | ⟨second, rest⟩⟩
    · rfl
    · rfl
    · simp only [retextSecond, mapSecond]
      by_cases hm : second.isNamed "map" = true
      · simp only [hm, ↓reduceIte, Argument.mapValue_isNamed, Argument.mapValue_mapValue,
          Value.mapString_mapString, x.name_index]
      · simp only [hm, Bool.false_eq_true, ↓reduceIte]
  · simp only [mapIndexText, retextIndex, h, Bool.false_eq_true, ↓reduceIte]

end Attribute

/-- A line of a model that is renumbered after its texts were made neutral, or before. -/
theorem ModelMember.mapKeyTexts_rename_retext (number : Nat) (member : ModelMember) :
    retext .neutral (modelName (x.model k)) number
        ((member.renameDeclared x.toRenaming (modelName k)).renameReferences x.toRenaming
          (modelName k)) =
      ((((member.retext .neutral (modelName k) number).1.renameDeclared x.toRenaming
        (modelName k)).renameReferences x.toRenaming (modelName k)).mapKeyTexts x.name,
        (member.retext .neutral (modelName k) number).2) := by
  cases member with
  | field f =>
    simp only [retext, mapKeyTexts, renameDeclared, renameReferences, Field.retext,
      Field.renameDeclared, Field.renameReferences, List.map_map, Texts.around_rename,
      Function.comp_def, Attribute.renameDeclared_retextOnField,
      Attribute.renameReferences_retextOnField, Attribute.mapKeyText_retextOnField]
    rfl
  | blockAttribute a =>
    simp only [retext, mapKeyTexts, renameDeclared, renameReferences,
      Attribute.renameKeys_retextIndex, Attribute.renameLists_retextIndex,
      Attribute.mapIndexText_retextIndex, Attribute.renameLists_is, Attribute.renameKeys_is]
  | comment c => rfl

end Texts

theorem EnumMember.cleared_rename (ρ : Renaming) (enum : String) (member : EnumMember) :
    member.cleared.rename ρ enum = (member.rename ρ enum).cleared := by
  cases member <;> rfl

/-- A declaration that is renumbered after its texts were made neutral, or before. -/
theorem Declaration.mapKeyTexts_rename_retext (x : Renumbering) {d : Declaration}
    (hname : ∀ m, d = .model m → ∃ k, m.name.name = modelName k) :
    ((d.retext .neutral).rename x.toRenaming).mapKeyTexts x.name =
      (d.rename x.toRenaming).retext .neutral := by
  cases d with
  | model m =>
    obtain ⟨k, hk⟩ := hname m rfl
    have hmembers := congrArg Prod.fst (numberAlong_map
      (f := ModelMember.retext .neutral (modelName k))
      (g := ModelMember.retext .neutral (modelName (x.model k)))
      (h := fun member => (member.renameDeclared x.toRenaming (modelName k)).renameReferences
        x.toRenaming (modelName k))
      (k := fun member => ((member.renameDeclared x.toRenaming (modelName k)).renameReferences
        x.toRenaming (modelName k)).mapKeyTexts x.name)
      (ModelMember.mapKeyTexts_rename_retext x k) 0 m.members)
    simp only [retext, rename, mapKeyTexts, Model.retext, Model.rename, Ident.rename, hk,
      x.toRenaming_type, x.name_modelName, hmembers, List.map_map, Function.comp_def]
  | enum e =>
    simp only [retext, rename, Enum.rename, mapKeyTexts, List.map_map, Function.comp_def,
      EnumMember.cleared_rename]
  | config b => rfl
  | comments b => rfl

/-- **A declaration under other numbers.** A renumbering that carries the environment variables
of a declaration along, and leads from the names of one renaming to those of another, leads from
what an obfuscation makes of the declaration to what another one makes of it. -/
theorem Declaration.renumber_numberEnv {x : Renumbering} {d : Declaration} {ρ ρ' : Renaming}
    {n n' : Nat} (hname : ∀ m, d = .model m → ∃ k, ρ.type m.name.name = modelName k)
    (hrename : (d.rename ρ).rename x.toRenaming = d.rename ρ')
    (hcarry : Carries x.envName n n' (d.numberEnv 0).2) :
    (((d.numberEnv n).1.rename ρ).retext .neutral).renumber x =
      ((d.numberEnv n').1.rename ρ').retext .neutral := by
  have hnumber : ∀ (ρ : Renaming) k, (d.numberEnv k).1.rename ρ = ((d.rename ρ).numberEnv k).1 :=
    fun ρ k => (congrArg Prod.fst (unseen_rename ρ k d)).symm
  have hagain :
      ((d.numberEnv n').1.rename ρ).rename x.toRenaming = (d.numberEnv n').1.rename ρ' := by
    rw [hnumber, hnumber ρ', ← hrename]
    exact (congrArg Prod.fst (unseen_rename x.toRenaming n' (d.rename ρ))).symm
  rw [renumber, ← Retouch.retext_onDeclaration, ← Retouch.rename_onDeclaration,
    shifts_numberEnv.carry n n' d hcarry, mapKeyTexts_rename_retext x, hagain]
  intro m hm
  cases d with
  | model m₀ =>
    cases hm
    exact hname m₀ rfl
  | enum e => cases hm
  | config b => cases hm
  | comments b => cases hm

end Pseudonym

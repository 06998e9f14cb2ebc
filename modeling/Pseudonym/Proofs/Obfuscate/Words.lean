/-
# New names are words

Every name that is given out is a name of the grammar, and one that means
nothing else there: no scalar type, no truth value. On an accepted schema all
names are declared and get such a word, so it does not matter what a renaming
does to other names; `Outline.given` leaves them as they are.
-/
import Pseudonym.Proofs.Obfuscate.Bindings
import Pseudonym.Proofs.Obfuscate.NewNames
import Pseudonym.Proofs.Obfuscate.RenamedTwice
import Pseudonym.Proofs.Syntax.WellSpelled

namespace Pseudonym

/-- A name of the grammar that means nothing else. -/
structure IsWord (w : String) : Prop where
  isName : isName w.toList = true
  notScalar : ScalarType.ofWord? w = none
  notTruth : w ≠ "true" ∧ w ≠ "false"

/-! ### The words that are given out -/

theorem all_isNameChar_toString (i : Nat) : (toString i).toList.all isNameChar = true := by
  have htext : (toString i).toList = Nat.toDigits 10 i := Nat.toList_repr
  rw [htext, List.all_eq_true]
  intro x hx
  have hdigit : x.isDigit = true := Nat.isDigit_of_mem_toDigits (by decide) (by decide) hx
  simp [isNameChar, Char.isAlphanum, hdigit]

theorem isName_append {w v : List Char} (hw : isName w = true) (hv : v.all isNameChar = true) :
    isName (w ++ v) = true := by
  cases w with
  | nil => cases hw
  | cons x w =>
    simp only [isName, Bool.and_eq_true, List.cons_append, List.all_append] at hw ⊢
    exact ⟨hw.1, hw.2, hv⟩

/-- No other word has an underscore. -/
theorem isWord_of_underscore {w : String} (hw : isName w.toList = true) (h : '_' ∈ w.toList) :
    IsWord w := by
  refine ⟨hw, ?_, ?_, ?_⟩
  · rw [ScalarType.ofWord?, List.find?_eq_none]
    intro type _ hword
    rw [← beq_iff_eq.mp hword] at h
    revert h
    cases type <;> decide
  · rintro rfl
    exact absurd h (by decide)
  · rintro rfl
    exact absurd h (by decide)

theorem isWord_numbered (stem : String) (hstem : isName stem.toList = true)
    (h : '_' ∈ stem.toList) (i : Nat) : IsWord (stem ++ toString i) := by
  refine isWord_of_underscore ?_ ?_
  · rw [String.toList_append]
    exact isName_append hstem (all_isNameChar_toString i)
  · rw [String.toList_append]
    exact List.mem_append_left _ h

theorem isWord_modelName (i : Nat) : IsWord (modelName i) :=
  isWord_numbered "model_name_" (by decide) (by decide) i

theorem isWord_enumName (i : Nat) : IsWord (enumName i) :=
  isWord_numbered "ENUM_" (by decide) (by decide) i

theorem isWord_fieldName (i : Nat) : IsWord (fieldName i) :=
  isWord_numbered "field_" (by decide) (by decide) i

theorem isWord_valueName (i : Nat) : IsWord (valueName i) :=
  isWord_numbered "VALUE_" (by decide) (by decide) i

theorem isWord_relationName (i j : Nat) : IsWord (relationName (modelName i) j) := by
  refine isWord_numbered (modelName i ++ "_relation_") ?_ ?_ j
  · rw [String.toList_append]
    exact isName_append (isWord_modelName i).isName (by decide)
  · rw [String.toList_append]
    exact List.mem_append_right _ (by decide)

/-! ### New names of what a schema declares -/

namespace Schema

variable {n : Numbering} {s : Schema} {m : Model} {e : Enum} {x : String}

theorem model?_name (h : s.typeNames.Nodup) (hm : m ∈ s.models) :
    s.model? m.name.name = some m := by
  rw [s.typeNames_perm.nodup_iff, List.nodup_append] at h
  exact find?_of_nodup (·.name.name) h.1 hm

theorem enum?_name (h : s.typeNames.Nodup) (he : e ∈ s.enums) :
    s.enum? e.name.name = some e := by
  rw [s.typeNames_perm.nodup_iff, List.nodup_append] at h
  exact find?_of_nodup (·.name.name) h.2.1 he

theorem getElem?_model (h : s.typeNames.Nodup) (hm : m ∈ s.models) :
    (s.outline n).models[(s.outline n).modelNames.idxOf m.name.name]? = some m.outline := by
  rw [getElem?_models_outline, model?_name h hm]
  rfl

theorem getElem?_enum (h : s.typeNames.Nodup) (he : e ∈ s.enums) :
    ∃ o, (s.outline n).enums[(s.outline n).enumNames.idxOf e.name.name]? = some o ∧
      o.values = e.valueNames := by
  have hget := s.getElem?_enums_outline (n := n) e.name.name
  rw [enum?_name h he, Option.map_some, Option.map_eq_some_iff] at hget
  obtain ⟨o, ho, hnames⟩ := hget
  exact ⟨o, ho, congrArg Prod.snd hnames⟩

theorem newNames_type_model (hm : m ∈ s.models) : (s.outline n).newNames.type m.name.name =
    modelName ((s.outline n).modelNames.idxOf m.name.name) :=
  Outline.newNames_type_of_model (mem_modelNames hm)

theorem newNames_type_enum (h : s.typeNames.Nodup) (he : e ∈ s.enums) :
    (s.outline n).newNames.type e.name.name =
      enumName ((s.outline n).enumNames.idxOf e.name.name) :=
  Outline.newNames_type_of_enum (fun hm => disjoint_types h hm (mem_enumNames he))
    (mem_enumNames he)

theorem newNames_field (h : s.typeNames.Nodup) (hm : m ∈ s.models) (hx : x ∈ m.keyNames) :
    (s.outline n).newNames.field m.name.name x = m.outline.newKey x :=
  Outline.newNames_field_of_mem (getElem?_model h hm) (m.mem_keys_outline.mpr hx)

theorem newNames_relation (h : s.typeNames.Nodup) (hm : m ∈ s.models) (hx : x ∈ m.relationNames) :
    (s.outline n).newNames.relation m.name.name x =
      m.outline.newRelation ((s.outline n).modelNames.idxOf m.name.name) x :=
  Outline.newNames_relation_of_mem (getElem?_model h hm) (m.relations_outline ▸ hx)

theorem newNames_value (h : s.typeNames.Nodup) (he : e ∈ s.enums) (hx : x ∈ e.valueNames) :
    ∃ o, (s.outline n).enums[(s.outline n).enumNames.idxOf e.name.name]? = some o ∧
      o.values = e.valueNames ∧ (s.outline n).newNames.value e.name.name x = o.newValue x := by
  obtain ⟨o, ho, hvalues⟩ := getElem?_enum (n := n) h he
  exact ⟨o, ho, hvalues, Outline.newNames_value_of_mem ho (hvalues ▸ hx)⟩

end Schema

/-! ### Leaving other names -/

namespace Outline

/-- The new names of an outline. Names that it does not have stay. -/
def given (o : Outline) : Renaming where
  type := o.newType
  field model name := (o.models[o.modelNames.idxOf model]?.bind (·.key? name)).getD name
  value enum name := (o.enums[o.enumNames.idxOf enum]?.bind (·.value? name)).getD name
  relation model name :=
    (o.models[o.modelNames.idxOf model]?.bind (·.relation? (o.modelNames.idxOf model) name)).getD name

end Outline

/-- Every name that is changed is changed to a word. -/
def Rewords (f : String → String) : Prop := ∀ x, f x = x ∨ IsWord (f x)

theorem rewords_getD {look : String → Option String} (h : ∀ x new, look x = some new → IsWord new) :
    Rewords fun x => (look x).getD x := by
  intro x
  cases hx : look x with
  | none => exact .inl (by simp only [hx, Option.getD_none])
  | some new => exact .inr (by simpa only [hx, Option.getD_some] using h x new hx)

/-- Every name of a scope that is changed is changed to a word. -/
structure Renaming.Rewords (ρ : Renaming) : Prop where
  type : Pseudonym.Rewords ρ.type
  field : ∀ model, Pseudonym.Rewords (ρ.field model)
  value : ∀ enum, Pseudonym.Rewords (ρ.value enum)
  relation : ∀ model, Pseudonym.Rewords (ρ.relation model)

theorem Outline.given_words (o : Outline) : o.given.Rewords where
  type := rewords_getD fun x new h => by
    rcases type?_eq_some.mp h with ⟨-, rfl⟩ | ⟨-, -, rfl⟩
    · exact isWord_modelName _
    · exact isWord_enumName _
  field model := rewords_getD fun x new h => by
    obtain ⟨m, -, h⟩ := Option.bind_eq_some_iff.mp h
    simp only [ModelOutline.key?, Option.ite_none_right_eq_some, Option.some.injEq] at h
    exact h.2 ▸ isWord_fieldName _
  value enum := rewords_getD fun x new h => by
    obtain ⟨e, -, h⟩ := Option.bind_eq_some_iff.mp h
    simp only [EnumOutline.value?, Option.ite_none_right_eq_some, Option.some.injEq] at h
    exact h.2 ▸ isWord_valueName _
  relation model := rewords_getD fun x new h => by
    obtain ⟨m, -, h⟩ := Option.bind_eq_some_iff.mp h
    simp only [ModelOutline.relation?, Option.ite_none_right_eq_some, Option.some.injEq] at h
    exact h.2 ▸ isWord_relationName _ _

namespace Schema

variable {n : Numbering} {s : Schema} {m : Model} {e : Enum} {x : String}

theorem given_field (h : s.typeNames.Nodup) (hm : m ∈ s.models) (hx : x ∈ m.keyNames) :
    (s.outline n).given.field m.name.name x = m.outline.newKey x := by
  simp only [Outline.given, getElem?_model h hm, Option.bind_some, ModelOutline.key?,
    m.mem_keys_outline.mpr hx, ↓reduceIte, Option.getD_some, ModelOutline.newKey]

theorem given_relation (h : s.typeNames.Nodup) (hm : m ∈ s.models) (hx : x ∈ m.relationNames) :
    (s.outline n).given.relation m.name.name x =
      m.outline.newRelation ((s.outline n).modelNames.idxOf m.name.name) x := by
  have hx' : x ∈ m.outline.relations := m.relations_outline ▸ hx
  simp only [Outline.given, getElem?_model h hm, Option.bind_some, ModelOutline.relation?, hx',
    ↓reduceIte, Option.getD_some, ModelOutline.newRelation]

/-- On an accepted schema it does not matter what becomes of names that are not declared. -/
theorem rename_newNames (hs : s.Accepted) :
    s.rename (s.outline n).newNames = s.rename (s.outline n).given := by
  have hleads : s.Leads .same (s.outline n).newNames (s.outline n).given := by
    refine ⟨fun x _ hx => hx, fun x hx => ?_, fun m hm x hx => ?_, fun m hm x hx => ?_,
      fun e he x hx => ?_⟩
    · show (s.outline n).newNames.type x = (s.outline n).newType x
      by_cases hmodel : x ∈ (s.outline n).modelNames
      · rw [Outline.newNames_type_of_model hmodel, Outline.newType_of_model hmodel]
      · have henum := (mem_typeNames.mp hx).resolve_left hmodel
        rw [Outline.newNames_type_of_enum hmodel henum, Outline.newType_of_enum hmodel henum]
    · exact (newNames_field hs.types hm hx).trans (given_field hs.types hm hx).symm
    · exact (newNames_relation hs.types hm hx).trans (given_relation hs.types hm hx).symm
    · obtain ⟨o, ho, hvalues, hvalue⟩ := newNames_value (n := n) hs.types he hx
      refine hvalue.trans ?_
      simp only [Outline.given, ho, Option.bind_some, EnumOutline.value?, hvalues, hx, ↓reduceIte,
        Option.getD_some, EnumOutline.newValue]
  have htwice := rename_rename hs hleads
  rwa [rename_same] at htwice

end Schema

end Pseudonym

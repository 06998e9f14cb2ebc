/-
# New names

The renaming that an outline determines: every declared name has the name that
the registry of the outline gives it. A name that is not declared has none
there; it gets a mark in front, so that it stays apart from all others and the
renaming is faithful.
-/
import Pseudonym.Proofs.Obfuscate.RenamedReferences
import Pseudonym.Proofs.Schema.Outline

namespace Pseudonym

/-- A name that is not declared, set apart from the new names. -/
def marked (name : String) : String := "~" ++ name

/-- The name that a look-up gives, or the marked one. -/
def orMarked (look : String → Option String) (name : String) : String :=
  (look name).getD (marked name)

theorem orMarked_injective {look : String → Option String}
    (hlook : ∀ x y new, look x = some new → look y = some new → x = y)
    (hne : ∀ x y, look x ≠ some (marked y)) : Function.Injective (orMarked look) := by
  intro x y h
  unfold orMarked at h
  cases hx : look x with
  | none =>
    cases hy : look y with
    | none =>
      rw [hx, hy] at h
      exact (String.append_right_inj _).mp h
    | some new =>
      rw [hx, hy] at h
      exact absurd (hy.trans (congrArg some h.symm)) (hne y x)
  | some new =>
    cases hy : look y with
    | none =>
      rw [hx, hy] at h
      exact absurd (hx.trans (congrArg some h)) (hne x y)
    | some new' =>
      rw [hx, hy] at h
      exact hlook x y new hx (hy.trans (congrArg some h.symm))

namespace Outline

variable {o : Outline} {m : ModelOutline} {e : EnumOutline} {model enum name : String}

/-- The new names of an outline, scope by scope. -/
def newNames (o : Outline) : Renaming where
  type := orMarked o.type?
  field model := orMarked fun name => o.models[o.modelNames.idxOf model]?.bind (·.key? name)
  value enum := orMarked fun name => o.enums[o.enumNames.idxOf enum]?.bind (·.value? name)
  relation model := orMarked fun name =>
    o.models[o.modelNames.idxOf model]?.bind (·.relation? (o.modelNames.idxOf model) name)

/-! ### Names that are declared -/

theorem model_of_mem (h : model ∈ o.modelNames) :
    ∃ m, o.models[o.modelNames.idxOf model]? = some m ∧ m.name = model := getElem?_idxOf h

theorem enum_of_mem (h : enum ∈ o.enumNames) :
    ∃ e, o.enums[o.enumNames.idxOf enum]? = some e ∧ e.name = enum := getElem?_idxOf h

theorem newNames_type_of_model (h : name ∈ o.modelNames) :
    o.newNames.type name = modelName (o.modelNames.idxOf name) := by
  show orMarked o.type? name = _
  rw [orMarked, type?, if_pos h]
  rfl

theorem newNames_type_of_enum (hm : name ∉ o.modelNames) (he : name ∈ o.enumNames) :
    o.newNames.type name = enumName (o.enumNames.idxOf name) := by
  show orMarked o.type? name = _
  rw [orMarked, type?, if_neg hm, if_pos he]
  rfl

theorem newNames_field (hm : o.models[o.modelNames.idxOf model]? = some m) :
    o.newNames.field model = orMarked m.key? := by
  show orMarked (fun name => o.models[o.modelNames.idxOf model]?.bind (·.key? name)) = _
  rw [hm]
  rfl

theorem newNames_relation (hm : o.models[o.modelNames.idxOf model]? = some m) :
    o.newNames.relation model = orMarked (m.relation? (o.modelNames.idxOf model)) := by
  show orMarked (fun name => o.models[o.modelNames.idxOf model]?.bind (·.relation? _ name)) = _
  rw [hm]
  rfl

theorem newNames_value (he : o.enums[o.enumNames.idxOf enum]? = some e) :
    o.newNames.value enum = orMarked e.value? := by
  show orMarked (fun name => o.enums[o.enumNames.idxOf enum]?.bind (·.value? name)) = _
  rw [he]
  rfl

theorem newNames_field_of_mem (hm : o.models[o.modelNames.idxOf model]? = some m)
    (h : name ∈ m.keys) : o.newNames.field model name = m.newKey name := by
  rw [newNames_field hm, orMarked, ModelOutline.key?, if_pos h]
  rfl

theorem newNames_relation_of_mem (hm : o.models[o.modelNames.idxOf model]? = some m)
    (h : name ∈ m.relations) :
    o.newNames.relation model name = m.newRelation (o.modelNames.idxOf model) name := by
  rw [newNames_relation hm, orMarked, ModelOutline.relation?, if_pos h]
  rfl

theorem newNames_value_of_mem (he : o.enums[o.enumNames.idxOf enum]? = some e)
    (h : name ∈ e.values) : o.newNames.value enum name = e.newValue name := by
  rw [newNames_value he, orMarked, EnumOutline.value?, if_pos h]
  rfl

/-! ### All names -/

theorem fieldName_head (i : Nat) : (fieldName i).toList.head? = some 'f' := by
  simp [fieldName, toString]

theorem valueName_head (i : Nat) : (valueName i).toList.head? = some 'V' := by
  simp [valueName, toString]

theorem relationName_head (i j : Nat) : (relationName (modelName i) j).toList.head? = some 'm' := by
  simp [relationName, modelName, toString]

theorem head_marked (name : String) : (marked name).toList.head? = some '~' := by
  simp [marked]

theorem ne_marked {new : String} {c : Char} (hc : c ≠ '~') (h : new.toList.head? = some c)
    (name : String) : new ≠ marked name := by
  rintro rfl
  rw [head_marked] at h
  exact hc (Option.some.inj h).symm

theorem type?_eq_some {new : String} : o.type? name = some new ↔
    (name ∈ o.modelNames ∧ modelName (o.modelNames.idxOf name) = new) ∨
      (name ∉ o.modelNames ∧ name ∈ o.enumNames ∧ enumName (o.enumNames.idxOf name) = new) := by
  unfold type?
  by_cases hm : name ∈ o.modelNames
  · simp [hm]
  · by_cases he : name ∈ o.enumNames <;> simp [hm, he]

theorem type?_injective (x y new : String) (hx : o.type? x = some new)
    (hy : o.type? y = some new) : x = y := by
  rcases type?_eq_some.mp hx with ⟨hxm, hx⟩ | ⟨-, hxe, hx⟩ <;>
    rcases type?_eq_some.mp hy with ⟨-, hy⟩ | ⟨-, -, hy⟩
  · exact (List.idxOf_inj hxm).mp (modelName_inj (hx.trans hy.symm))
  · exact absurd (hx.trans hy.symm) (modelName_ne_enumName _ _)
  · exact absurd (hy.trans hx.symm) (modelName_ne_enumName _ _)
  · exact (List.idxOf_inj hxe).mp (enumName_inj (hx.trans hy.symm))

theorem type?_ne_marked (x y : String) : o.type? x ≠ some (marked y) := by
  intro h
  rcases type?_eq_some.mp h with ⟨-, h⟩ | ⟨-, -, h⟩
  · exact ne_marked (by decide) (modelName_head _) y h
  · exact ne_marked (by decide) (enumName_head _) y h

/-- Look-ups by the number of a name in a list. -/
theorem numbered_injective {k : Nat → String} (hk : ∀ i j, k i = k j → i = j)
    {names : List String} (x y new : String)
    (hx : (if x ∈ names then some (k (names.idxOf x)) else none) = some new)
    (hy : (if y ∈ names then some (k (names.idxOf y)) else none) = some new) : x = y := by
  simp only [Option.ite_none_right_eq_some, Option.some.injEq] at hx hy
  exact (List.idxOf_inj hx.1).mp (hk _ _ (hx.2.trans hy.2.symm))

theorem numbered_ne_marked {k : Nat → String} {c : Char} (hc : c ≠ '~')
    (hk : ∀ i, (k i).toList.head? = some c) {names : List String} (x y : String) :
    (if x ∈ names then some (k (names.idxOf x)) else none) ≠ some (marked y) := by
  intro h
  simp only [Option.ite_none_right_eq_some, Option.some.injEq] at h
  exact ne_marked hc (hk _) y h.2

theorem orMarked_none_injective : Function.Injective (orMarked fun _ => none) :=
  orMarked_injective (fun _ _ _ h => by cases h) fun _ _ h => by cases h

theorem orMarked_key?_injective (m : ModelOutline) : Function.Injective (orMarked m.key?) :=
  orMarked_injective (numbered_injective fun _ _ => fieldName_inj)
    (numbered_ne_marked (c := 'f') (by decide) fieldName_head)

theorem orMarked_value?_injective (e : EnumOutline) : Function.Injective (orMarked e.value?) := by
  have hk : ∀ i j, valueName (e.base + i) = valueName (e.base + j) → i = j := by
    intro i j h
    have hij : e.base + i = e.base + j := valueName_inj h
    omega
  exact orMarked_injective (numbered_injective (k := fun i => valueName (e.base + i)) hk)
    (numbered_ne_marked (k := fun i => valueName (e.base + i)) (c := 'V') (by decide)
      fun i => valueName_head _)

theorem orMarked_relation?_injective (m : ModelOutline) (i : Nat) :
    Function.Injective (orMarked (m.relation? i)) :=
  orMarked_injective
    (numbered_injective (k := relationName (modelName i)) fun _ _ => relationName_inj)
    (numbered_ne_marked (k := relationName (modelName i)) (c := 'm') (by decide)
      (relationName_head i))

/-- The renaming of an outline is faithful, on names that are declared and on all others. -/
theorem newNames_faithful (o : Outline) : o.newNames.Faithful where
  type := orMarked_injective type?_injective type?_ne_marked
  builtin name h := by
    have hu : o.newNames.type name = orMarked o.type? name := rfl
    rw [hu, orMarked] at h
    cases hname : o.type? name with
    | none =>
      rw [hname] at h
      exact absurd h.symm (ne_marked (c := 'U') (by decide) (by simp) name)
    | some new =>
      rw [hname] at h
      obtain rfl : new = "Unsupported" := h
      rcases type?_eq_some.mp hname with ⟨-, h⟩ | ⟨-, -, h⟩
      · exact absurd h.symm (unsupported_ne_modelName _)
      · exact absurd h.symm (unsupported_ne_enumName _)
  field model := by
    show Function.Injective (orMarked fun name => o.models[o.modelNames.idxOf model]?.bind (·.key? name))
    cases o.models[o.modelNames.idxOf model]? with
    | none => exact orMarked_none_injective
    | some m => exact orMarked_key?_injective m
  value enum := by
    show Function.Injective (orMarked fun name => o.enums[o.enumNames.idxOf enum]?.bind (·.value? name))
    cases o.enums[o.enumNames.idxOf enum]? with
    | none => exact orMarked_none_injective
    | some e => exact orMarked_value?_injective e
  relation model := by
    show Function.Injective (orMarked fun name =>
      o.models[o.modelNames.idxOf model]?.bind (·.relation? (o.modelNames.idxOf model) name))
    cases o.models[o.modelNames.idxOf model]? with
    | none => exact orMarked_none_injective
    | some m => exact orMarked_relation?_injective m _

end Outline

end Pseudonym

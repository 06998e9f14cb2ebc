/-
# Scopes under new names

The scopes around a field, with every name replaced by its new name in the
outline of the schema. The registry of the outline translates the old scopes
into these, as long as no two models or enums share a name.
-/
import Pseudonym.Proofs.Obfuscate.Declaring

namespace Pseudonym

variable {n : Numbering} {s : Schema} {r : Registry}

/-! ### Finding declarations by name -/

namespace Schema

theorem modelNames_outline (s : Schema) :
    (s.outline n).modelNames = s.models.map (·.name.name) := by
  rw [Outline.modelNames, models_outline, List.map_map]
  exact List.map_congr_left fun m _ => m.name_outline

theorem enumNames_outline (s : Schema) :
    (s.outline n).enumNames = s.enums.map (·.name.name) := by
  have h := congrArg (List.map Prod.fst) (enums_outline (n := n) s)
  rw [List.map_map, List.map_map] at h
  exact h

/-- The outline has the models of a schema at the places of their names. -/
theorem getElem?_models_outline (s : Schema) (name : String) :
    (s.outline n).models[(s.outline n).modelNames.idxOf name]? =
      (s.model? name).map (·.outline) := by
  rw [model?, find?_eq_getElem?_idxOf, modelNames_outline, models_outline, List.getElem?_map]

theorem getElem?_enums_outline (s : Schema) (name : String) :
    ((s.outline n).enums[(s.outline n).enumNames.idxOf name]?).map enumNames =
      (s.enum? name).map fun e => (e.name.name, e.valueNames) := by
  rw [enum?, find?_eq_getElem?_idxOf, enumNames_outline, ← List.getElem?_map, enums_outline,
    List.getElem?_map]

/-- Models and enums share one scope. -/
theorem typeNames_perm (s : Schema) :
    s.typeNames.Perm (s.models.map (·.name.name) ++ s.enums.map (·.name.name)) := by
  rw [typeNames, models, enums]
  induction s.declarations with
  | nil => rfl
  | cons d ds ih =>
    cases d with
    | model m => exact ih.cons m.name.name
    | enum e => exact (ih.cons e.name.name).trans List.perm_middle.symm
    | config b => exact ih
    | comments b => exact ih

theorem mem_typeNames {x : String} :
    x ∈ s.typeNames ↔ x ∈ (s.outline n).modelNames ∨ x ∈ (s.outline n).enumNames := by
  rw [s.typeNames_perm.mem_iff, List.mem_append, modelNames_outline, enumNames_outline]

theorem disjoint_types (h : s.typeNames.Nodup) {x : String} (hm : x ∈ (s.outline n).modelNames) :
    x ∉ (s.outline n).enumNames := by
  rw [s.typeNames_perm.nodup_iff, List.nodup_append] at h
  rw [modelNames_outline] at hm
  rw [enumNames_outline]
  exact fun he => h.2.2 x hm x he rfl

end Schema

/-! ### New names -/

/-- The new name of a value of an enum. -/
def Outline.newValue (o : Outline) (enum value : String) : String :=
  ((o.enums[o.enumNames.idxOf enum]?).map (·.newValue value)).getD value

/-- The scopes around a field of this type in a model, under new names. -/
def Schema.newScopes (n : Numbering) (s : Schema) (m : Model) (type : FieldType) : FieldScopes where
  keys := m.keyNames.map m.outline.newKey
  target := (s.modelOf type).map fun t => (t.keyNames.map t.outline.newKey,
    t.relationNames.map (t.outline.newRelation ((s.outline n).modelNames.idxOf t.name.name)))
  values := (s.enumOf type).map fun e => e.valueNames.map ((s.outline n).newValue e.name.name)

/-- A look-up that gives every name of a scope a new one translates the scope. -/
theorem Translates.of_map {look : String → Except Fault String} {old : List String}
    {f : String → String} (hinj : ∀ x ∈ old, ∀ y ∈ old, f y = f x → y = x)
    (hlook : ∀ x ∈ old, look x = .ok (f x)) (hnone : ∀ x ∉ old, ∃ e, look x = .error e) :
    Translates look old (old.map f) := by
  intro x
  refine ⟨fun hx => ⟨f x, hlook x hx, idxOf?_map (hinj x hx)⟩, hnone x⟩

section Registry

variable {o : Outline} {m : Model} {k : Nat}

/-- The scope of an owner is translated by what is found for its names. -/
theorem Translates.of_found {shelf : Shelf} {owner : String} {old : List String}
    {f : String → String} (hinj : ∀ x ∈ old, ∀ y ∈ old, f y = f x → y = x)
    (hfound : ∀ x, r.found shelf owner x = if x ∈ old then some (f x) else none) :
    Translates (r.resolve shelf owner) old (old.map f) := by
  refine Translates.of_map hinj (fun x hx => ?_) fun x hx => ?_
  · exact Registry.resolve_eq_ok.mpr ((hfound x).trans (if_pos hx))
  · rw [Registry.resolve, hfound, if_neg hx]
    exact ⟨_, rfl⟩

theorem Model.translates_keys (hr : OfOutline n o r) (hk : o.models[k]? = some m.outline) :
    Translates (r.resolveField (modelName k)) m.keyNames (m.keyNames.map m.outline.newKey) := by
  obtain ⟨env, rfl⟩ := hr
  refine Translates.of_found (fun x hx y hy h => ?_) fun x => ?_
  · exact m.outline.newKey_injOn (mem_keys_outline.mpr hy) h
  · rw [Outline.found_field (o := { o with envVars := env }) hk, ModelOutline.key?]
    simp only [mem_keys_outline]
    rfl

theorem Model.translates_relations (hr : OfOutline n o r) (hk : o.models[k]? = some m.outline) :
    Translates (r.resolveRelation (modelName k)) m.relationNames
      (m.relationNames.map (m.outline.newRelation k)) := by
  obtain ⟨env, rfl⟩ := hr
  rw [← m.relations_outline]
  exact Translates.of_found (fun x hx y hy h => m.outline.newRelation_injOn hy h)
    (Outline.found_relation (o := { o with envVars := env }) hk)

theorem EnumOutline.translates_values {e : EnumOutline} (hr : OfOutline n o r)
    (hk : o.enums[k]? = some e) :
    Translates (r.resolveValue (enumName k)) e.values (e.values.map e.newValue) := by
  obtain ⟨env, rfl⟩ := hr
  exact Translates.of_found (fun x hx y hy h => e.newValue_injOn hy h)
    (Outline.found_value (o := { o with envVars := env }) hk)

theorem Outline.isSome_type? (o : Outline) (name : String) :
    (o.type? name).isSome = true ↔ name ∈ o.modelNames ∨ name ∈ o.enumNames := by
  unfold type?
  by_cases hm : name ∈ o.modelNames
  · simp [hm]
  · by_cases he : name ∈ o.enumNames <;> simp [hm, he]

theorem FieldType.meets_resolve (type : FieldType) (hr : OfOutline n o r) :
    Meets (type.resolve r)
      (∀ name, type.typeName? = some name → name ∈ o.modelNames ∨ name ∈ o.enumNames)
      (type.Resolved o) := by
  obtain ⟨env, rfl⟩ := hr
  cases type with
  | scalar type => exact Meets.ok (by simp [typeName?]) (.builtin (by simp [reference?]))
  | unsupported text => exact Meets.ok (by simp [typeName?]) (.builtin (by simp [reference?]))
  | named ident =>
    by_cases hu : ident.name = "Unsupported"
    · simp only [resolve, hu, ↓reduceIte, beq_self_eq_true]
      exact Meets.ok (by simp [typeName?, hu]) (.builtin (by simp [reference?, hu]))
    simp only [resolve, beq_iff_eq, hu, ↓reduceIte, typeName?, Option.some.injEq, forall_eq']
    refine Meets.locate ?_ _
    have hsome := Outline.isSome_type? { o with envVars := env } ident.name
    rw [Outline.resolveType_registry]
    cases ht : Outline.type? { o with envVars := env } ident.name with
    | none =>
      rw [ht] at hsome
      exact Meets.error _ fun h => by simpa using hsome.mpr h
    | some new =>
      rw [ht] at hsome
      exact Meets.ok (hsome.mp rfl) (FieldType.Resolved.of_type? (o := o) hu ht)

theorem FieldType.Resolved.scalar? {type type' : FieldType} (h : type.Resolved o type') :
    type'.scalar? = type.scalar? := by
  cases h <;> rfl

/-- A type that refers to no declaration has no name, or the reserved one. -/
theorem FieldType.target_of_builtin {type : FieldType}
    (h : ∀ ident, type.reference? = some ident → ident.name = "Unsupported") :
    type.reference?.map (·.name) = none ∨ type.reference?.map (·.name) = some "Unsupported" := by
  cases hr : type.reference? with
  | none => exact .inl rfl
  | some ident => exact .inr (congrArg some (h ident hr))

theorem FieldType.typeName?_of_builtin {type : FieldType}
    (h : ∀ ident, type.reference? = some ident → ident.name = "Unsupported") :
    type.typeName? = none := by
  cases type with
  | named ident => rw [typeName?, if_pos (h ident rfl)]
  | _ => rfl

theorem OfOutline.isModel {m : ModelOutline} (hr : OfOutline n o r) (hk : o.models[k]? = some m) :
    r.isModel (modelName k) = true := by
  obtain ⟨env, rfl⟩ := hr
  rw [Outline.isModel_modelName, decide_eq_true_iff]
  exact (List.getElem?_eq_some_iff.mp hk).1

theorem OfOutline.isEnum {e : EnumOutline} (hr : OfOutline n o r) (hk : o.enums[k]? = some e) :
    r.isEnum (enumName k) = true := by
  obtain ⟨env, rfl⟩ := hr
  rw [Outline.isEnum_enumName, decide_eq_true_iff]
  exact (List.getElem?_eq_some_iff.mp hk).1

/-- A field that points at no model finds no keys or relations there. -/
theorem targetTranslates_of_no_model {target? : Option String} (hr : OfOutline n o r)
    (h : ∀ i, target?.getD "" ≠ modelName i) : TargetTranslates r target? none none := by
  obtain ⟨env, rfl⟩ := hr
  refine .none ?_ fun name => ⟨_, Outline.resolveRelation_of_ne h name⟩
  cases target? with
  | none => rfl
  | some target =>
    have ht : ∀ i, target ≠ modelName i := h
    simp [Option.filter, Outline.isModel_of_ne ht]

theorem valuesTranslate_of_no_enum {target? : Option String} (hr : OfOutline n o r)
    (h : ∀ x i, target? = some x → x ≠ enumName i) : ValuesTranslate r target? none none := by
  obtain ⟨env, rfl⟩ := hr
  refine .none ?_
  cases target? with
  | none => rfl
  | some target => simp [Option.filter, Outline.isEnum_of_ne fun i => h target i rfl]

end Registry

/-! ### Translated scopes -/

namespace Schema

variable {m : Model} {k : Nat} {type type' : FieldType}

theorem translates_target (hr : OfOutline n (s.outline n) r)
    (htype : type.Resolved (s.outline n) type') :
    TargetTranslates r (type'.reference?.map (·.name)) (s.scopesAt m type).target
      (s.newScopes n m type).target := by
  rw [scopesAt, newScopes, modelOf]
  cases htype with
  | model hu hm =>
    rename_i ident
    rw [FieldType.typeName?, if_neg hu, Option.bind_some]
    obtain ⟨t, ht, hname⟩ := find?_of_mem (modelNames_outline s ▸ hm)
    have hk : (s.outline n).models[(s.outline n).modelNames.idxOf ident.name]? = some t.outline := by
      rw [getElem?_models_outline, model?, ht]
      rfl
    rw [model?, ht, Option.map_some, Option.map_some, hname]
    exact .some rfl (hr.isModel hk) (Model.translates_keys hr hk) (Model.translates_relations hr hk)
  | enum hu hm he =>
    rw [FieldType.typeName?, if_neg hu, Option.bind_some, model?,
      find?_of_not_mem (modelNames_outline s ▸ hm)]
    exact targetTranslates_of_no_model hr fun i => (modelName_ne_enumName i _).symm
  | builtin hb =>
    rw [FieldType.typeName?_of_builtin hb]
    refine targetTranslates_of_no_model hr fun i => ?_
    obtain hnone | hunsupported := FieldType.target_of_builtin hb
    · rw [hnone]
      exact empty_ne_modelName i
    · rw [hunsupported]
      exact unsupported_ne_modelName i

theorem translates_values (h : s.typeNames.Nodup) (hr : OfOutline n (s.outline n) r)
    (htype : type.Resolved (s.outline n) type') :
    ValuesTranslate r (type'.reference?.map (·.name)) (s.scopesAt m type).values
      (s.newScopes n m type).values := by
  rw [scopesAt, newScopes, enumOf]
  cases htype with
  | model hu hm =>
    rw [FieldType.typeName?, if_neg hu, Option.bind_some, enum?,
      find?_of_not_mem (enumNames_outline s ▸ disjoint_types h hm)]
    refine valuesTranslate_of_no_enum hr fun x i hx => ?_
    cases hx
    exact modelName_ne_enumName _ i
  | enum hu hm he =>
    rename_i ident
    rw [FieldType.typeName?, if_neg hu, Option.bind_some]
    obtain ⟨e, hfind, hname⟩ := find?_of_mem (enumNames_outline s ▸ he)
    obtain ⟨eo, heo, -⟩ := getElem?_idxOf he
    have hnames := getElem?_enums_outline (n := n) s ident.name
    rw [Outline.enumNames, heo, enum?, hfind] at hnames
    simp only [Option.map_some, Option.some.injEq, enumNames, Prod.mk.injEq] at hnames
    have hnew : (s.outline n).newValue ident.name = eo.newValue := by
      funext x
      rw [Outline.newValue, Outline.enumNames, heo]
      rfl
    rw [enum?, hfind, Option.map_some, Option.map_some, hname, hnew, ← hnames.2]
    exact .some rfl (hr.isEnum heo) (EnumOutline.translates_values hr heo)
  | builtin hb =>
    rw [FieldType.typeName?_of_builtin hb]
    refine valuesTranslate_of_no_enum hr fun x i hx => ?_
    obtain hnone | hunsupported := FieldType.target_of_builtin hb
    · rw [hnone] at hx
      cases hx
    · rw [hunsupported] at hx
      cases hx
      exact unsupported_ne_enumName i

/-- The registry of a schema's outline translates the scopes around every field. -/
theorem translates_newScopes (h : s.typeNames.Nodup) (hr : OfOutline n (s.outline n) r)
    (hk : (s.outline n).models[k]? = some m.outline) (htype : type.Resolved (s.outline n) type')
    (field : String) :
    (s.scopesAt m type).Translates r ⟨modelName k, field, type'⟩ (s.newScopes n m type) :=
  ⟨Model.translates_keys hr hk, translates_target hr htype, translates_values h hr htype⟩

end Schema

end Pseudonym

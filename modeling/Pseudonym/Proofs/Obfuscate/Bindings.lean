/-
# What references are bound to

After an obfuscation every reference is to the declaration that stands where
the one stood that it was to before: the place of what it names, in the scope
in which it is looked up, is the same. For the scopes of the result are those
of the schema with every name replaced by its new name, and no two names of a
scope have the same new name, so none captures another, whatever the names
were before.

Key definitions: `Outline.newType`.
-/
import Mathlib.Data.List.Nodup
import Pseudonym.Proofs.Obfuscate.Acceptance

namespace Pseudonym

variable {n : Numbering} {s t : Schema}

/-! ### Models and enums -/

namespace Outline

/-- The new name of a model or an enum. -/
def newType (o : Outline) (name : String) : String := (o.type? name).getD name

theorem newType_of_model {o : Outline} {name : String} (h : name ∈ o.modelNames) :
    o.newType name = modelName (o.modelNames.idxOf name) := by
  rw [newType, type?, if_pos h]
  rfl

theorem newType_of_enum {o : Outline} {name : String} (hm : name ∉ o.modelNames)
    (he : name ∈ o.enumNames) : o.newType name = enumName (o.enumNames.idxOf name) := by
  rw [newType, type?, if_neg hm, if_pos he]
  rfl

/-- No two models or enums get the same name. -/
theorem newType_injOn {o : Outline} {x y : String} (hx : x ∈ o.modelNames ∨ x ∈ o.enumNames)
    (hy : y ∈ o.modelNames ∨ y ∈ o.enumNames) (h : o.newType x = o.newType y) : x = y := by
  by_cases hxm : x ∈ o.modelNames
  · rw [newType_of_model hxm] at h
    by_cases hym : y ∈ o.modelNames
    · rw [newType_of_model hym] at h
      exact (List.idxOf_inj hxm).mp (modelName_inj h)
    · rw [newType_of_enum hym (hy.resolve_left hym)] at h
      exact absurd h (modelName_ne_enumName _ _)
  · rw [newType_of_enum hxm (hx.resolve_left hxm)] at h
    by_cases hym : y ∈ o.modelNames
    · rw [newType_of_model hym] at h
      exact absurd h.symm (modelName_ne_enumName _ _)
    · rw [newType_of_enum hym (hy.resolve_left hym)] at h
      exact (List.idxOf_inj (hx.resolve_left hxm)).mp (enumName_inj h)

theorem beq_newType {o : Outline} {x y : String} (hx : x ∈ o.modelNames ∨ x ∈ o.enumNames)
    (hy : y ∈ o.modelNames ∨ y ∈ o.enumNames) : (o.newType x == o.newType y) = (x == y) := by
  rw [Bool.eq_iff_iff, beq_iff_eq, beq_iff_eq]
  exact ⟨newType_injOn hx hy, congrArg _⟩

end Outline

theorem FieldType.Resolved.typeName? {o : Outline} {type type' : FieldType}
    (h : type.Resolved o type') : type'.typeName? = type.typeName?.map o.newType := by
  cases h with
  | model hu hm =>
    rw [FieldType.typeName?, FieldType.typeName?, if_neg hu, Option.map_some,
      Outline.newType_of_model hm]
    exact if_neg (unsupported_ne_modelName _).symm
  | enum hu hm he =>
    rw [FieldType.typeName?, FieldType.typeName?, if_neg hu, Option.map_some,
      Outline.newType_of_enum hm he]
    exact if_neg (unsupported_ne_enumName _).symm
  | builtin hb => rw [typeName?_of_builtin hb]; rfl

theorem FieldType.Resolved.mem {o : Outline} {type type' : FieldType} (h : type.Resolved o type')
    {name : String} (hname : type.typeName? = some name) :
    name ∈ o.modelNames ∨ name ∈ o.enumNames := by
  cases h with
  | model hu hm =>
    rw [FieldType.typeName?, if_neg hu] at hname
    cases hname
    exact .inl hm
  | enum hu hm he =>
    rw [FieldType.typeName?, if_neg hu] at hname
    cases hname
    exact .inr he
  | builtin hb =>
    rw [typeName?_of_builtin hb] at hname
    cases hname

namespace Schema

theorem Bound.models (h : Bound n s t) :
    List.Forall₂ (fun m m' => m ∈ s.models ∧ Model.Bound n s m m') s.models t.models := by
  refine forall₂_mem (forall₂_filterMap h fun d d' hd => ?_)
  cases hd with
  | model hm => exact .inr ⟨_, _, rfl, rfl, hm⟩
  | enum he => exact .inl ⟨rfl, rfl⟩
  | config b b' => exact .inl ⟨rfl, rfl⟩
  | comments b b' => exact .inl ⟨rfl, rfl⟩

theorem Bound.enums (h : Bound n s t) :
    List.Forall₂ (fun e e' => e ∈ s.enums ∧ Enum.Declared (s.outline n) e e') s.enums t.enums := by
  refine forall₂_mem (forall₂_filterMap h fun d d' hd => ?_)
  cases hd with
  | model hm => exact .inl ⟨rfl, rfl⟩
  | enum he => exact .inr ⟨_, _, rfl, rfl, he⟩
  | config b b' => exact .inl ⟨rfl, rfl⟩
  | comments b b' => exact .inl ⟨rfl, rfl⟩

theorem mem_modelNames {m : Model} (hm : m ∈ s.models) : m.name.name ∈ (s.outline n).modelNames := by
  rw [modelNames_outline]
  exact List.mem_map.mpr ⟨m, hm, rfl⟩

theorem mem_enumNames {e : Enum} (he : e ∈ s.enums) : e.name.name ∈ (s.outline n).enumNames := by
  rw [enumNames_outline]
  exact List.mem_map.mpr ⟨e, he, rfl⟩

theorem newType_model {m m' : Model} (hm : m ∈ s.models) (hb : Model.Bound n s m m') :
    m'.name.name = (s.outline n).newType m.name.name := by
  rw [Outline.newType_of_model (mem_modelNames hm), hb.name]

theorem newType_enum (h : s.typeNames.Nodup) {e e' : Enum} (he : e ∈ s.enums)
    (hb : Enum.Declared (s.outline n) e e') :
    e'.name.name = (s.outline n).newType e.name.name := by
  have hm : e.name.name ∉ (s.outline n).modelNames :=
    fun hm => disjoint_types h hm (mem_enumNames he)
  rw [Outline.newType_of_enum hm (mem_enumNames he), hb.name]

/-- Every model and every enum has its new name. -/
theorem Bound.typeName? (h : s.typeNames.Nodup) (hb : Bound n s t) :
    List.Forall₂ (fun d d' => d ∈ s.declarations ∧
      d'.typeName? = d.typeName?.map (s.outline n).newType) s.declarations t.declarations := by
  refine (forall₂_mem hb).imp fun d d' ⟨hmem, hd⟩ => ⟨hmem, ?_⟩
  cases hd with
  | model hm =>
    exact congrArg some (newType_model (List.mem_filterMap.mpr ⟨_, hmem, rfl⟩) hm)
  | enum he =>
    exact congrArg some (newType_enum h (List.mem_filterMap.mpr ⟨_, hmem, rfl⟩) he)
  | config b b' => rfl
  | comments b b' => rfl

/-- A type names the declaration at the place where the one was that it named. -/
theorem typePlace?_of_bound (h : s.typeNames.Nodup) (hb : Bound n s t) {type type' : FieldType}
    (htype : type.Resolved (s.outline n) type') : t.typePlace? type' = s.typePlace? type := by
  rw [typePlace?, typePlace?, htype.typeName?]
  cases hname : type.typeName? with
  | none => rfl
  | some name =>
    refine findIdx?_eq_of_forall₂ (hb.typeName? h) fun d d' ⟨hmem, hd⟩ => ?_
    rw [hd]
    cases hx : d.typeName? with
    | none => rfl
    | some x =>
      have hxs : x ∈ s.typeNames := List.mem_filterMap.mpr ⟨d, hmem, hx⟩
      exact Outline.beq_newType (mem_typeNames.mp hxs) (htype.mem hname)

end Schema

/-! ### Scopes -/

namespace Model

variable {m m' : Model}

theorem Bound.fields (h : Bound n s m m') : List.Forall₂
    (Field.Bound n s m ((s.outline n).modelNames.idxOf m.name.name)) m.fields m'.fields := by
  refine forall₂_filterMap h.members fun member member' hb => ?_
  cases hb with
  | field hf => exact .inr ⟨_, _, rfl, rfl, hf⟩
  | blockAttribute names places => exact .inl ⟨rfl, rfl⟩
  | comment c d => exact .inl ⟨rfl, rfl⟩

theorem Bound.attributes (h : Bound n s m m') : List.Forall₂
    (fun a b => b.keyNames = a.keyNames.map m.outline.newKey) m.attributes m'.attributes := by
  refine forall₂_filterMap h.members fun member member' hb => ?_
  cases hb with
  | field hf => exact .inl ⟨rfl, rfl⟩
  | blockAttribute names places => exact .inr ⟨_, _, rfl, rfl, names⟩
  | comment c d => exact .inl ⟨rfl, rfl⟩

theorem Bound.fieldNames (h : Bound n s m m') :
    m'.fieldNames = m.fieldNames.map m.outline.newKey := by
  rw [Model.fieldNames, Model.fieldNames, List.map_map]
  exact map_eq_of_forall₂ (h.fields.imp fun _ _ hf => hf.name)

theorem Bound.keyNames (h : Bound n s m m') : m'.keyNames = m.keyNames.map m.outline.newKey := by
  rw [Model.keyNames, Model.keyNames, List.map_append, h.fieldNames, List.map_flatMap]
  exact congrArg _ (flatMap_eq_of_forall₂ h.attributes)

theorem Bound.relationNames (h : Bound n s m m') :
    m'.relationNames = m.relationNames.map
      (m.outline.newRelation ((s.outline n).modelNames.idxOf m.name.name)) := by
  rw [Model.relationNames, Model.relationNames, List.map_flatMap]
  refine flatMap_eq_of_forall₂ (h.members.imp fun member member' hb => ?_)
  cases hb with
  | field hf =>
    show Field.relationNames _ = (Field.relationNames _).map _
    rw [Field.relationNames, Field.relationNames, List.map_filterMap]
    exact filterMap_eq_of_forall₂ (hf.attributes.imp fun _ _ ha => ha.relation)
  | blockAttribute names places => rfl
  | comment c d => rfl

end Model

theorem Enum.Declared.valueNames {e e' : Enum} (h : Declared (s.outline n) e e') :
    e'.valueNames = e.valueNames.map ((s.outline n).newValue e.name.name) := by
  obtain ⟨base, hbase, hvalues⟩ := h.values
  rw [hvalues]
  refine List.map_congr_left fun x _ => ?_
  rw [Outline.newValue, hbase]
  rfl

namespace Schema

variable {m m' : Model} {type type' : FieldType}

theorem target_of_bound (m m' : Model) (hb : Bound n s t)
    (htype : type.Resolved (s.outline n) type') :
    (t.scopesAt m' type').target = (s.newScopes n m type).target := by
  rw [scopesAt, newScopes, modelOf, modelOf, htype.typeName?]
  cases hname : type.typeName? with
  | none => rfl
  | some name =>
    have hfind := find?_of_forall₂ (p := fun m : Model => m.name.name == name)
      (q := fun m : Model => m.name.name == (s.outline n).newType name) hb.models
      fun u u' hu => by
        rw [newType_model hu.1 hu.2]
        exact Outline.beq_newType (.inl (mem_modelNames hu.1)) (htype.mem hname)
    simp only [Option.map_some, Option.bind_some, model?]
    obtain ⟨hnone, hnone'⟩ | ⟨u, u', hu, hu', -, hbu⟩ := hfind
    · rw [hnone, hnone']
      rfl
    · rw [hu, hu', Option.map_some, Option.map_some, hbu.keyNames, hbu.relationNames]

theorem values_of_bound (m m' : Model) (h : s.typeNames.Nodup) (hb : Bound n s t)
    (htype : type.Resolved (s.outline n) type') :
    (t.scopesAt m' type').values = (s.newScopes n m type).values := by
  rw [scopesAt, newScopes, enumOf, enumOf, htype.typeName?]
  cases hname : type.typeName? with
  | none => rfl
  | some name =>
    have hfind := find?_of_forall₂ (p := fun e : Enum => e.name.name == name)
      (q := fun e : Enum => e.name.name == (s.outline n).newType name) hb.enums
      fun e e' he => by
        rw [newType_enum h he.1 he.2]
        exact Outline.beq_newType (.inr (mem_enumNames he.1)) (htype.mem hname)
    simp only [Option.map_some, Option.bind_some, enum?]
    obtain ⟨hnone, hnone'⟩ | ⟨e, e', he, he', -, hbe⟩ := hfind
    · rw [hnone, hnone']
      rfl
    · rw [he, he', Option.map_some, Option.map_some, hbe.valueNames]

/-- The scopes around a field of the result are the old ones under new names. -/
theorem scopesAt_of_bound (h : s.typeNames.Nodup) (hb : Bound n s t) (hm : Model.Bound n s m m')
    (htype : type.Resolved (s.outline n) type') :
    t.scopesAt m' type' = s.newScopes n m type := by
  have hkeys : (t.scopesAt m' type').keys = (s.newScopes n m type).keys := hm.keyNames
  have htarget := target_of_bound m m' hb htype
  have hvalues := values_of_bound m m' h hb htype
  cases ht : t.scopesAt m' type'
  cases hs : s.newScopes n m type
  simp_all

theorem memberPlaces_of_bound (h : s.typeNames.Nodup) (hb : Bound n s t)
    (hm : Model.Bound n s m m') {k : Nat} {member member' : ModelMember}
    (hmember : ModelMember.Bound n s m k member member') :
    t.memberPlaces m' member' = s.memberPlaces m member := by
  cases hmember with
  | field hf =>
    rw [memberPlaces, memberPlaces, typePlace?_of_bound h hb hf.type,
      scopesAt_of_bound h hb hm hf.type]
    exact congrArg _ (map_eq_of_forall₂ (hf.attributes.imp fun _ _ ha => ha.places))
  | blockAttribute names places =>
    rw [memberPlaces, memberPlaces, hm.keyNames, places]
  | comment c d => rfl

/-- Every reference of the result is to the place it was to before. -/
theorem places_of_bound (h : s.typeNames.Nodup) (hb : Bound n s t) : t.places = s.places := by
  refine map_eq_of_forall₂ (hb.imp fun d d' hd => ?_)
  cases hd with
  | model hm =>
    rw [declarationPlaces, declarationPlaces]
    exact congrArg _ (map_eq_of_forall₂ (hm.members.imp fun _ _ hmember =>
      memberPlaces_of_bound h hb hm hmember))
  | enum he =>
    rw [declarationPlaces, declarationPlaces, he.valueNames, List.length_map]
  | config b b' => rfl
  | comments b b' => rfl

end Schema

/-! ### Distinct names -/

theorem Model.FieldsFresh.nodup {m : Model} (h : m.FieldsFresh) : m.fieldNames.Nodup := by
  rw [fieldNames, fields]
  unfold FieldsFresh at h
  generalize m.members = members at h
  induction members with
  | nil => exact List.nodup_nil
  | cons member rest ih =>
    have hrest := ih fun before f after hl hf =>
      h (member :: before) f after (by rw [hl]; rfl) (List.mem_append_right _ hf)
    cases member with
    | field f =>
      refine List.nodup_cons.mpr ⟨fun hmem => ?_, hrest⟩
      -- a later field of the same name would not be new
      obtain ⟨g, hg, hname⟩ := List.mem_map.mp hmem
      obtain ⟨other, hother, hfield⟩ := List.mem_filterMap.mp hg
      obtain ⟨before, after, hsplit⟩ := List.append_of_mem hother
      cases other with
      | field g' =>
        cases hfield
        refine h (.field f :: before) g after (by rw [hsplit]; rfl) ?_
        exact List.mem_append_left _ (hname ▸ List.mem_singleton_self _)
      | _ => cases hfield
    | blockAttribute a => exact hrest
    | comment c => exact hrest

namespace Schema

/-- Declared names are distinct in their scopes. -/
structure Distinct (s : Schema) : Prop where
  types : s.typeNames.Nodup
  fields : ∀ m ∈ s.models, m.fieldNames.Nodup
  relations : ∀ m ∈ s.models, m.relationNames.Nodup
  values : ∀ e ∈ s.enums, e.valueNames.Nodup

/-- New names are as distinct as the old ones. -/
theorem distinct_of_bound (h : s.Accepted) (hb : Bound n s t) : t.Distinct where
  types := by
    have hnames : t.typeNames = s.typeNames.map (s.outline n).newType := by
      rw [typeNames, typeNames, List.map_filterMap]
      exact filterMap_eq_of_forall₂ ((hb.typeName? h.types).imp fun _ _ hd => hd.2)
    rw [hnames]
    refine List.Nodup.map_on (fun x hx y hy hxy => ?_) h.types
    exact Outline.newType_injOn (mem_typeNames.mp hx) (mem_typeNames.mp hy) hxy
  fields m' hm' := by
    obtain ⟨m, -, hm, hbm⟩ := exists_left_of_forall₂ hb.models hm'
    rw [hbm.fieldNames]
    refine List.Nodup.map_on (fun x hx y _ hxy => ?_) (h.fields m hm).nodup
    exact m.outline.newKey_injOn (Model.mem_keys_outline.mpr (List.mem_append_left _ hx)) hxy
  relations m' hm' := by
    obtain ⟨m, -, hm, hbm⟩ := exists_left_of_forall₂ hb.models hm'
    rw [hbm.relationNames]
    refine List.Nodup.map_on (fun x hx y _ hxy => ?_) (h.relations m hm)
    exact m.outline.newRelation_injOn (m.relations_outline ▸ hx) hxy
  values e' he' := by
    obtain ⟨e, -, he, hbe⟩ := exists_left_of_forall₂ hb.enums he'
    obtain ⟨base, -, hvalues⟩ := hbe.values
    rw [hvalues]
    refine List.Nodup.map_on (fun x hx y _ hxy => ?_) (h.values e he)
    exact (e.outline base).newValue_injOn hx hxy

/-- **Bindings are kept.** If an obfuscation succeeds, every reference of the schema is to
something that it declares, the references of the result are to the same places, and the names
of the result are distinct in their scopes. -/
theorem places_obfuscate {n : Numbering} {s t : Schema} {r : Registry}
    (h : s.obfuscate n = .ok (t, r)) :
    t.places = s.places ∧ (∀ d ∈ s.declarations, d.Suits s) ∧ t.Distinct := by
  obtain ⟨haccepted, hb⟩ := (s.meets_obfuscate n).of_ok h
  have hsuits := (s.accepted_iff.mpr haccepted).2
  exact ⟨places_of_bound haccepted.types hb, hsuits, distinct_of_bound haccepted hb⟩

/-- Two models that have each other's new names, as have their fields: the first one points
ahead, and both lists of its relation cross over. -/
def crossed : Schema :=
  let here : Span := ⟨0, 0, 1⟩
  let only (name : String) : Value := .array [.path [name]]
  let field (name : String) (type : FieldType) (attributes : List Attribute) : ModelMember :=
    .field ⟨⟨name, here⟩, type, .required, attributes, none, here⟩
  ⟨[.model ⟨⟨"model_name_1", here⟩, [
      field "field_1" (.scalar .int) [],
      field "field_0" (.named ⟨"model_name_0", here⟩)
        [⟨⟨"relation", here⟩, [⟨none, .string "model_name_1_relation_0", here⟩,
          ⟨some ⟨"fields", here⟩, only "field_1", here⟩,
          ⟨some ⟨"references", here⟩, only "field_1", here⟩], here⟩]], here⟩,
    .model ⟨⟨"model_name_0", here⟩, [
      field "field_2" (.named ⟨"ENUM_1", here⟩)
        [⟨⟨"default", here⟩, [⟨none, .path ["VALUE_1"], here⟩], here⟩],
      field "field_1" (.scalar .int) [],
      field "field_0" (.named ⟨"model_name_1", here⟩)
        [⟨⟨"relation", here⟩, [⟨none, .string "model_name_1_relation_0", here⟩], here⟩],
      .blockAttribute ⟨⟨⟨"unique", here⟩,
        [⟨none, .array [.path ["field_1"], .path ["field_2"]], here⟩], here⟩, none⟩], here⟩,
    .enum ⟨⟨"ENUM_1", here⟩, [.value ⟨⟨"VALUE_1", here⟩, [], none, here⟩,
      .value ⟨⟨"VALUE_0", here⟩, [], none, here⟩], here⟩]⟩

theorem places_obfuscate_crossed : ∃ t r, crossed.obfuscate .perEnum = .ok (t, r) ∧
    t.places = crossed.places ∧ t.Distinct := by
  have hok : (crossed.obfuscate .perEnum).toBool = true := by decide +kernel
  cases h : crossed.obfuscate .perEnum with
  | error e =>
    rw [h] at hok
    cases hok
  | ok p =>
    obtain ⟨hplaces, -, hdistinct⟩ := places_obfuscate h
    exact ⟨p.1, p.2, rfl, hplaces, hdistinct⟩

end Schema

end Pseudonym

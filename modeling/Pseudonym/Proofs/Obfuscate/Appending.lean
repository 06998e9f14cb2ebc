/-
# Declarations that are appended

What is appended to a schema comes after it in every count: the outline of the
longer schema opens with that of the shorter one, so every name of the shorter
one has the same new name in both, and every table of the longer registry
opens with the entries of the shorter one. The references are resolved in the
longer registry, but an accepted schema refers to its own names only, and for
these the two registries answer the same. A schema that cannot be declared
stays so, with the same fault, since the fault is found before anything that
is appended is looked at.

Key definitions: `Registry.Opens`.
-/
import Pseudonym.Proofs.Obfuscate.Unchanged

namespace Pseudonym

/-! ### Tables that open others -/

theorem Table.get?_extended {α : Type} {t t' : Table α} {name : String}
    (h : t.entries <+: t'.entries) (hname : t.contains name = true) :
    t'.get? name = t.get? name := by
  obtain ⟨more, hmore⟩ := h
  obtain ⟨a, ha⟩ := Option.isSome_iff_exists.mp hname
  have hlookup : t.entries.lookup name = some a := ha
  rw [get?, get?, ← hmore, List.lookup_append, hlookup, Option.some_or]

/-- Every table of the one registry opens with the entries of the other one, and the models and
enums of the other one have their tables unchanged. -/
structure Registry.Opens (r r' : Registry) : Prop where
  models : r.models.entries <+: r'.models.entries
  fields : r.fields.entries <+: r'.fields.entries
  enums : r.enums.entries <+: r'.enums.entries
  values : r.values.entries <+: r'.values.entries
  relations : r.relations.entries <+: r'.relations.entries
  fieldScopes : ∀ model, r.isModel model = true → r'.fields.get? model = r.fields.get? model
  valueScopes : ∀ enum, r.isEnum enum = true → r'.values.get? enum = r.values.get? enum
  relationScopes : ∀ model, r.isModel model = true →
    r'.relations.get? model = r.relations.get? model

/-! ### Outlines that open others -/

namespace Outline.Within

variable {n : Numbering} {o o' : Outline} {model enum name : String}

theorem modelNames (h : o.Within o') : o.modelNames <+: o'.modelNames := h.models.map _

theorem enumNames (h : o.Within o') : o.enumNames <+: o'.enumNames := h.enums.map _

/-- A model stands at the same place in both. -/
theorem getElem?_model (h : o.Within o') (hmodel : model ∈ o.modelNames) :
    ∃ m, o.models[o.modelNames.idxOf model]? = some m ∧
      o'.models[o'.modelNames.idxOf model]? = some m := by
  obtain ⟨m, hm, -⟩ := model_of_mem hmodel
  refine ⟨m, hm, ?_⟩
  rw [← h.modelNames.idxOf_eq_of_mem hmodel]
  exact getElem?_extended h.models hm

theorem getElem?_enum (h : o.Within o') (henum : enum ∈ o.enumNames) :
    ∃ e, o.enums[o.enumNames.idxOf enum]? = some e ∧
      o'.enums[o'.enumNames.idxOf enum]? = some e := by
  obtain ⟨e, he, -⟩ := enum_of_mem henum
  refine ⟨e, he, ?_⟩
  rw [← h.enumNames.idxOf_eq_of_mem henum]
  exact getElem?_extended h.enums he

/-! What is appended gives no new names to what was there. -/

theorem newNames_model (h : o.Within o') (hname : name ∈ o.modelNames) :
    o'.newNames.type name = o.newNames.type name := by
  rw [newNames_type_of_model hname, newNames_type_of_model (h.modelNames.subset hname),
    ← h.modelNames.idxOf_eq_of_mem hname]

theorem newNames_enum (h : o.Within o') (hmodel : name ∉ o'.modelNames)
    (hname : name ∈ o.enumNames) :
    o'.newNames.type name = o.newNames.type name := by
  rw [newNames_type_of_enum (fun hm => hmodel (h.modelNames.subset hm)) hname,
    newNames_type_of_enum hmodel (h.enumNames.subset hname), ← h.enumNames.idxOf_eq_of_mem hname]

theorem newNames_field (h : o.Within o') (hmodel : model ∈ o.modelNames) :
    o'.newNames.field model = o.newNames.field model := by
  obtain ⟨m, hm, hm'⟩ := h.getElem?_model hmodel
  rw [Outline.newNames_field hm, Outline.newNames_field hm']

theorem newNames_relation (h : o.Within o') (hmodel : model ∈ o.modelNames) :
    o'.newNames.relation model = o.newNames.relation model := by
  obtain ⟨m, hm, hm'⟩ := h.getElem?_model hmodel
  rw [Outline.newNames_relation hm, Outline.newNames_relation hm',
    ← h.modelNames.idxOf_eq_of_mem hmodel]

theorem newNames_value (h : o.Within o') (henum : enum ∈ o.enumNames) :
    o'.newNames.value enum = o.newNames.value enum := by
  obtain ⟨e, he, he'⟩ := h.getElem?_enum henum
  rw [Outline.newNames_value he, Outline.newNames_value he']

/-- The registry of an outline opens that of a longer one. -/
theorem opens (h : o.Within o') : (o.registry n).Opens (o'.registry n) := by
  have hfields : (o.registry n).fields.entries <+: (o'.registry n).fields.entries :=
    prefix_mapIdx h.models _
  have hvalues : (o.registry n).values.entries <+: (o'.registry n).values.entries :=
    prefix_mapIdx h.enums _
  refine ⟨prefix_mapIdx h.modelNames _, hfields, prefix_mapIdx h.enumNames _, hvalues,
    (prefix_mapIdx h.models _).filter _, fun model => Table.get?_extended hfields,
    fun enum => Table.get?_extended hvalues, fun model hmodel => ?_⟩
  -- a model without relations has no table, so the tables alone do not settle this
  by_cases hname : ∃ k, model = modelName k
  · obtain ⟨k, rfl⟩ := hname
    rw [isModel_modelName, decide_eq_true_eq] at hmodel
    have hk : o'.models[k]? = o.models[k]? := by
      rw [List.getElem?_eq_getElem hmodel]
      exact getElem?_extended h.models (List.getElem?_eq_getElem hmodel)
    show (relationEntries o'.models).lookup _ = (relationEntries o.models).lookup _
    rw [lookup_relationEntries, lookup_relationEntries, hk]
  · rw [isModel_of_ne fun k hk => hname ⟨k, hk⟩] at hmodel
    cases hmodel

end Outline.Within

/-! ### Schemas -/

namespace Schema

variable {n : Numbering} {s t : Schema} {r : Registry}

theorem within_append (n : Numbering) (s t : Schema) :
    (s.outline n).Within ((s.append t).outline n) := by
  rw [outline, outline, append, List.foldl_append]
  exact grows_foldl .refl .trans (Outline.within_addDeclaration n) _ _

/-- The names of a schema keep their new names when something is appended. -/
theorem leads_append (h : (s.append t).typeNames.Nodup) :
    s.Leads (s.outline n).newNames .same ((s.append t).outline n).newNames := by
  have hwithin := within_append n s t
  refine ⟨fun x _ hx hbuiltin => hx ?_, fun x hx => ?_, fun m hm x hx => ?_, fun m hm x hx => ?_,
    fun e he x hx => ?_⟩
  · exact (s.outline n).newNames_faithful.builtin x hbuiltin
  · rcases (mem_typeNames (n := n)).mp hx with hmodel | henum
    · exact (hwithin.newNames_model hmodel).symm
    · have hmodel : x ∉ ((s.append t).outline n).modelNames := fun hm =>
        disjoint_types h hm (hwithin.enumNames.subset henum)
      exact (hwithin.newNames_enum hmodel henum).symm
  · exact (congrFun (hwithin.newNames_field (mem_modelNames hm)) x).symm
  · exact (congrFun (hwithin.newNames_relation (mem_modelNames hm)) x).symm
  · exact (congrFun (hwithin.newNames_value (mem_enumNames he)) x).symm

theorem rename_append (hs : s.Accepted) (ht : (s.append t).Accepted) :
    s.rename ((s.append t).outline n).newNames = s.rename (s.outline n).newNames := by
  rw [← rename_rename hs (leads_append ht.types), rename_same]

/-! ### The steps on what is appended -/

theorem append_numberEnv (k : Nat) (s t : Schema) : ((s.append t).numberEnv k).1 =
    (s.numberEnv k).1.append (t.numberEnv (s.numberEnv k).2).1 := by
  simp only [numberEnv, append, numberAlong_append, Prod.map, id]

theorem append_rename (ρ : Renaming) (s t : Schema) :
    (s.append t).rename ρ = (s.rename ρ).append (t.rename ρ) := by
  simp only [rename, append, List.map_append]

theorem append_retext (x : Texts) (s t : Schema) :
    (s.append t).retext x = (s.retext x).append (t.retext x) := by
  simp only [retext, append, List.map_append]

/-- What a schema becomes is what it becomes with something appended. -/
theorem result_append (hs : s.Accepted) (ht : (s.append t).Accepted) :
    ∃ rest, (s.append t).result n = (s.result n).append rest := by
  have hrename : (s.numberEnv 0).1.rename ((s.append t).outline n).newNames =
      (s.numberEnv 0).1.rename (s.outline n).newNames := by
    rw [rename_numberEnv, rename_append hs ht, rename_numberEnv]
  refine ⟨((t.numberEnv (s.numberEnv 0).2).1.rename
    ((s.append t).outline n).newNames).retext .neutral, ?_⟩
  rw [result, append_numberEnv, append_rename, append_retext, hrename, result]

theorem length_result (n : Numbering) (s : Schema) :
    (s.result n).declarations.length = s.declarations.length := by
  simp only [result, numberEnv, rename, retext, Prod.map, List.length_map, length_numberAlong]

/-- A fault is found before what is appended is looked at. -/
theorem declare_append_of_error {e : Fault} (h : s.declare r = .error e) (t : Schema) :
    (s.append t).declare r = .error e := by
  rw [declare, Naming.bind_apply] at h
  rw [declare, append, List.mapM_append, Naming.bind_apply, Naming.bind_apply]
  cases hs : s.declarations.mapM (·.declare) r with
  | error e' =>
    rw [hs] at h
    cases h
    rfl
  | ok p =>
    rw [hs] at h
    cases h

/-- **Appending renumbers nothing.** Where a schema can be obfuscated, and also with another one
appended, the declarations of the first become the same and every table opens with the same
entries. Where the first cannot be declared, neither can both, and the fault is the same. -/
theorem obfuscate_append (n : Numbering) (s t : Schema) :
    (∀ s' r u r', s.obfuscate n = .ok (s', r) → (s.append t).obfuscate n = .ok (u, r') →
      u.declarations.take s.declarations.length = s'.declarations ∧ r.Opens r') ∧
    ∀ e, s.declare (.new n) = .error e → (s.append t).obfuscate n = .error e := by
  constructor
  · intro s' r u r' hs hu
    have haccepted := ((s.meets_obfuscate n).of_ok hs).1
    have haccepted' := (((s.append t).meets_obfuscate n).of_ok hu).1
    obtain ⟨rfl, rfl⟩ := eq_result_of_ok hs
    obtain ⟨rfl, rfl⟩ := eq_result_of_ok hu
    obtain ⟨rest, hrest⟩ := result_append haccepted haccepted' (n := n)
    have hwithin := within_append n s t
    refine ⟨?_, Outline.Within.opens ⟨hwithin.models, hwithin.enums⟩⟩
    rw [hrest, append, ← length_result n s, List.take_left]
  · intro e he
    rw [obfuscate, declare_append_of_error he t]
    rfl

theorem exists_of_toBool {ε α : Type} {x : Except ε α} (h : x.toBool = true) : ∃ a, x = .ok a := by
  cases x with
  | error e => cases h
  | ok a => exact ⟨a, rfl⟩

/-- A model that points back at one before it, and an enum with a value and a name that look like
those given out before. -/
def trailing : Schema :=
  let here : Span := ⟨0, 0, 1⟩
  ⟨[.model ⟨⟨"Log", here⟩, [
      .field ⟨⟨"id", here⟩, .scalar .int, .required, [], none, here⟩,
      .field ⟨⟨"owner", here⟩, .named ⟨"model_name_1", here⟩, .required, [], none, here⟩], here⟩,
    .enum ⟨⟨"ENUM_0", here⟩, [.value ⟨⟨"VALUE_0", here⟩, [], none, here⟩], here⟩]⟩

/-- One schema behind another, and behind one that declares everything twice. -/
theorem obfuscate_append_crossed :
    (∃ s' r u r', crossed.obfuscate .global = .ok (s', r) ∧
      (crossed.append trailing).obfuscate .global = .ok (u, r') ∧
      u.declarations.take 3 = s'.declarations ∧ r.Opens r') ∧
    ∃ e, (crossed.append crossed).declare (.new .global) = .error e ∧
      ((crossed.append crossed).append trailing).obfuscate .global = .error e := by
  have hs : (crossed.obfuscate .global).toBool = true := by decide +kernel
  have hu : ((crossed.append trailing).obfuscate .global).toBool = true := by decide +kernel
  have hfail : ((crossed.append crossed).declare (.new .global)).toBool = false := by decide +kernel
  constructor
  · obtain ⟨⟨s', r⟩, hs⟩ := exists_of_toBool hs
    obtain ⟨⟨u, r'⟩, hu⟩ := exists_of_toBool hu
    obtain ⟨htake, hopens⟩ := (obfuscate_append .global crossed trailing).1 s' r u r' hs hu
    exact ⟨s', r, u, r', hs, hu, htake, hopens⟩
  · cases h : (crossed.append crossed).declare (.new .global) with
    | ok p =>
      rw [h] at hfail
      cases hfail
    | error e => exact ⟨e, rfl, (obfuscate_append .global _ trailing).2 e h⟩

end Schema

end Pseudonym

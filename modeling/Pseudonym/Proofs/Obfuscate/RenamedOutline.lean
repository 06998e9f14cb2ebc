/-
# Registries of renamed schemas

If two schemas differ by a renaming that keeps different names different, then
so do the outlines of their names at every moment of a run, and the two
registries give out the same new names: what is new in one is new in the
other, a name that is known here is known there and has the same number.
-/
import Pseudonym.Proofs.Names.Outline
import Pseudonym.Proofs.Obfuscate.Environment
import Pseudonym.Proofs.Obfuscate.Outcome

namespace Pseudonym

/-- The names of a model, renamed. -/
def ModelOutline.rename (ρ : Renaming) (m : ModelOutline) : ModelOutline :=
  ⟨ρ.type m.name, m.keys.map (ρ.field m.name), m.relations.map (ρ.relation m.name)⟩

/-- The names of an enum, renamed. -/
def EnumOutline.rename (ρ : Renaming) (e : EnumOutline) : EnumOutline :=
  ⟨ρ.type e.name, e.base, e.values.map (ρ.value e.name)⟩

/-- All names, renamed. -/
def Outline.rename (ρ : Renaming) (o : Outline) : Outline :=
  ⟨o.models.map (·.rename ρ), o.enums.map (·.rename ρ), o.envVars⟩

variable {ρ : Renaming} {n : Numbering} {ms : List ModelOutline} {es : List EnumOutline}

theorem ModelOutline.rename_addKey (hρ : ρ.Faithful) (m : ModelOutline) (name : String) :
    (m.rename ρ).addKey (ρ.field m.name name) = (m.addKey name).rename ρ := by
  by_cases h : name ∈ m.keys
  · simp [addKey, ModelOutline.rename, h, List.mem_map_of_injective (hρ.field m.name)]
  · simp [addKey, ModelOutline.rename, h, List.mem_map_of_injective (hρ.field m.name)]

theorem EnumOutline.used_rename (n : Numbering) (es : List EnumOutline) :
    used n (es.map (·.rename ρ)) = used n es := by
  cases n with
  | perEnum => rfl
  | global => simp [used, EnumOutline.rename, Function.comp_def]

/-! ### Two registries in the middle of a run -/

/-- Two registries between two declarations: of an outline, and of the renamed outline. -/
def Between (ρ : Renaming) (n : Numbering) (o : Outline) (r r' : Registry) : Prop :=
  r = o.registry n ∧ r' = (o.rename ρ).registry n

/-- Two registries inside a model. -/
def InModel (ρ : Renaming) (n : Numbering) (ms : List ModelOutline) (es : List EnumOutline)
    (model : String) (r r' : Registry) : Prop :=
  ∃ m env, m.name = model ∧ Between ρ n ⟨ms ++ [m], es, env⟩ r r'

/-- Two registries inside an enum. -/
def InEnum (ρ : Renaming) (n : Numbering) (ms : List ModelOutline) (es : List EnumOutline)
    (enum : String) (r r' : Registry) : Prop :=
  ∃ e env, e.name = enum ∧ e.base = EnumOutline.used n es ∧ Between ρ n ⟨ms, es ++ [e], env⟩ r r'

/-- Registries that stay related while environment variables are counted. -/
def CountsEnv (R : Registry → Registry → Prop) : Prop :=
  ∀ r r', R r r' → r.envVars = r'.envVars ∧
    ∀ k, R { r with envVars := k } { r' with envVars := k }

theorem InModel.countsEnv (model : String) : CountsEnv (InModel ρ n ms es model) := by
  rintro r r' ⟨m, env, hm, rfl, rfl⟩
  exact ⟨rfl, fun k => ⟨m, k, hm, rfl, rfl⟩⟩

theorem InEnum.countsEnv (enum : String) : CountsEnv (InEnum ρ n ms es enum) := by
  rintro r r' ⟨e, env, he, hb, rfl, rfl⟩
  exact ⟨rfl, fun k => ⟨e, k, he, hb, rfl, rfl⟩⟩

/-- Environment variables are numbered alike. -/
theorem Follows.numberEnv {α : Type} {R : Registry → Registry → Prop} (hR : CountsEnv R)
    {S : α → α → Prop} {f g : Nat → α × Nat} (h : ∀ k, S (f k).1 (g k).1 ∧ (f k).2 = (g k).2) :
    Follows R S (Naming.numberEnv f) (Naming.numberEnv g) := by
  intro r r' hr
  obtain ⟨he, hk⟩ := hR r r' hr
  obtain ⟨h1, h2⟩ := h r.envVars
  refine ⟨?_, ?_⟩
  · rw [← he]
    exact h1
  · rw [← he, ← h2]
    exact hk _

theorem InModel.registerField (hρ : ρ.Faithful) (line : Nat) (model name : String) :
    Follows (InModel ρ n ms es model) Eq
      (.register line (Registry.registerField (modelName ms.length) name))
      (.register line (Registry.registerField (modelName ms.length) (ρ.field model name))) := by
  rintro r r' ⟨m, env, rfl, rfl, rfl⟩
  refine Alike.locate ?_ line
  have h := @Outline.registerField_last n (ms.map (·.rename ρ)) (m.rename ρ) (es.map (·.rename ρ)) env
    (ρ.field m.name name)
  rw [List.length_map] at h
  simp only [Outline.rename, List.map_append, List.map_cons, List.map_nil]
  rw [Outline.registerField_last, h]
  refine Alike.ite (List.mem_map_of_injective (hρ.field m.name)).symm (fun _ => rfl) fun _ => ?_
  refine ⟨by simp [ModelOutline.rename], m.addKey name, env, m.addKey_name name, rfl, ?_⟩
  rw [ModelOutline.rename_addKey hρ]
  simp [Outline.rename]

theorem InModel.ensureField (hρ : ρ.Faithful) (line : Nat) (model name : String) :
    Follows (InModel ρ n ms es model) Eq
      (.register line (Registry.ensureField (modelName ms.length) name))
      (.register line (Registry.ensureField (modelName ms.length) (ρ.field model name))) := by
  rintro r r' ⟨m, env, rfl, rfl, rfl⟩
  refine Alike.locate ?_ line
  have h := @Outline.ensureField_last n (ms.map (·.rename ρ)) (m.rename ρ) (es.map (·.rename ρ)) env
    (ρ.field m.name name)
  rw [List.length_map, ModelOutline.rename_addKey hρ] at h
  simp only [Outline.rename, List.map_append, List.map_cons, List.map_nil]
  rw [Outline.ensureField_last, h]
  refine ⟨?_, m.addKey name, env, m.addKey_name name, rfl, by simp [Outline.rename]⟩
  simp only [ModelOutline.rename, ModelOutline.addKey_name]
  rw [idxOf_map_injective (hρ.field m.name)]

theorem InModel.registerRelation (hρ : ρ.Faithful) (line : Nat) (model name : String) :
    Follows (InModel ρ n ms es model) Eq
      (.register line (Registry.registerRelation (modelName ms.length) name))
      (.register line (Registry.registerRelation (modelName ms.length) (ρ.relation model name))) := by
  rintro r r' ⟨m, env, rfl, rfl, rfl⟩
  refine Alike.locate ?_ line
  have h := @Outline.registerRelation_last n (ms.map (·.rename ρ)) (m.rename ρ) (es.map (·.rename ρ)) env
    (ρ.relation m.name name)
  rw [List.length_map] at h
  simp only [Outline.rename, List.map_append, List.map_cons, List.map_nil]
  rw [Outline.registerRelation_last, h]
  refine Alike.ite (List.mem_map_of_injective (hρ.relation m.name)).symm (fun _ => rfl) fun _ => ?_
  refine ⟨by simp [ModelOutline.rename], m.addRelation name, env, rfl, rfl, ?_⟩
  simp [Outline.rename, ModelOutline.rename, ModelOutline.addRelation]

theorem InEnum.registerValue (hρ : ρ.Faithful) (line : Nat) (enum name : String) :
    Follows (InEnum ρ n ms es enum) Eq
      (.register line (Registry.registerValue (enumName es.length) name))
      (.register line (Registry.registerValue (enumName es.length) (ρ.value enum name))) := by
  rintro r r' ⟨e, env, rfl, hb, rfl, rfl⟩
  refine Alike.locate ?_ line
  have h := @Outline.registerValue_last n (ms.map (·.rename ρ)) (es.map (·.rename ρ)) (e.rename ρ) env
    (hb.trans (EnumOutline.used_rename n es).symm) (ρ.value e.name name)
  rw [List.length_map] at h
  simp only [Outline.rename, List.map_append, List.map_cons, List.map_nil]
  rw [Outline.registerValue_last hb, h]
  refine Alike.ite (List.mem_map_of_injective (hρ.value e.name)).symm (fun _ => rfl) fun _ => ?_
  refine ⟨by simp [EnumOutline.rename], e.addValue name, env, rfl, hb, rfl, ?_⟩
  simp [Outline.rename, EnumOutline.rename, EnumOutline.addValue]

/-! ### Looking up -/

namespace Outline

variable {o : Outline}

theorem modelNames_rename : (o.rename ρ).modelNames = o.modelNames.map ρ.type := by
  simp [modelNames, Outline.rename, ModelOutline.rename, Function.comp_def]

theorem enumNames_rename : (o.rename ρ).enumNames = o.enumNames.map ρ.type := by
  simp [enumNames, Outline.rename, EnumOutline.rename, Function.comp_def]

theorem type?_rename (hρ : ρ.Faithful) (name : String) :
    (o.rename ρ).type? (ρ.type name) = o.type? name := by
  simp only [type?, modelNames_rename, enumNames_rename, List.mem_map_of_injective hρ.type,
    idxOf_map_injective hρ.type]

theorem isModel_rename (name : String) :
    ((o.rename ρ).registry n).isModel name = (o.registry n).isModel name := by
  by_cases h : ∃ k, name = modelName k
  · obtain ⟨k, rfl⟩ := h
    simp [Outline.rename]
  · have h' : ∀ i, name ≠ modelName i := fun i hi => h ⟨i, hi⟩
    rw [isModel_of_ne h', isModel_of_ne h']

theorem isEnum_rename (name : String) :
    ((o.rename ρ).registry n).isEnum name = (o.registry n).isEnum name := by
  by_cases h : ∃ k, name = enumName k
  · obtain ⟨k, rfl⟩ := h
    simp [Outline.rename]
  · have h' : ∀ i, name ≠ enumName i := fun i hi => h ⟨i, hi⟩
    rw [isEnum_of_ne h', isEnum_of_ne h']

/-- Names for which the same is found are resolved alike. -/
theorem alike_resolve {r r' : Registry} {shelf : Shelf} {owner name name' : String}
    (h : r'.found shelf owner name' = r.found shelf owner name) :
    Alike Eq (r.resolve shelf owner name) (r'.resolve shelf owner name') := by
  rw [Registry.resolve, Registry.resolve, h]
  cases r.found shelf owner name <;> exact rfl

/-- A key has the same new name under its old name and under the renamed one. -/
theorem alike_resolveField (hρ : ρ.Faithful) {k : Nat} {m : ModelOutline}
    (hk : o.models[k]? = some m) (name : String) :
    Alike Eq ((o.registry n).resolveField (modelName k) name)
      (((o.rename ρ).registry n).resolveField (modelName k) (ρ.field m.name name)) := by
  have hk' : (o.rename ρ).models[k]? = some (m.rename ρ) := by simp [Outline.rename, hk]
  refine alike_resolve ?_
  rw [found_field hk, found_field hk']
  simp only [ModelOutline.key?, ModelOutline.rename, List.mem_map_of_injective (hρ.field m.name),
    idxOf_map_injective (hρ.field m.name)]

theorem alike_resolveRelation (hρ : ρ.Faithful) {k : Nat} {m : ModelOutline}
    (hk : o.models[k]? = some m) (name : String) :
    Alike Eq ((o.registry n).resolveRelation (modelName k) name)
      (((o.rename ρ).registry n).resolveRelation (modelName k) (ρ.relation m.name name)) := by
  have hk' : (o.rename ρ).models[k]? = some (m.rename ρ) := by simp [Outline.rename, hk]
  refine alike_resolve ?_
  rw [found_relation hk, found_relation hk']
  simp only [ModelOutline.relation?, ModelOutline.rename,
    List.mem_map_of_injective (hρ.relation m.name), idxOf_map_injective (hρ.relation m.name)]

theorem alike_resolveValue (hρ : ρ.Faithful) {k : Nat} {e : EnumOutline}
    (hk : o.enums[k]? = some e) (name : String) :
    Alike Eq ((o.registry n).resolveValue (enumName k) name)
      (((o.rename ρ).registry n).resolveValue (enumName k) (ρ.value e.name name)) := by
  have hk' : (o.rename ρ).enums[k]? = some (e.rename ρ) := by simp [Outline.rename, hk]
  refine alike_resolve ?_
  rw [found_value hk, found_value hk']
  simp only [EnumOutline.value?, EnumOutline.rename, List.mem_map_of_injective (hρ.value e.name),
    idxOf_map_injective (hρ.value e.name)]

end Outline

end Pseudonym

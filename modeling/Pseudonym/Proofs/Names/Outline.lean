/-
# Registries as outlines

While a schema is walked through, its registry is determined by the names that
were declared so far, in their order: the models with the keys and relations
of each, and the enums with their values. An outline lists them, and
`Outline.registry` is the registry that belongs to it. Every registration
takes the registry of an outline to the registry of a longer outline, or fails
where the name is listed already; every look-up is a search in the outline.

Only the model or the enum that comes last is registered into, since a block
is finished before the next one starts.
-/
import Mathlib.Algebra.GroupWithZero.Nat
import Pseudonym.Proofs.Names.Steps

namespace Pseudonym

/-- The names in a model: its keys (fields, and unique keys with a name of their own), each
once, and the relations that it declares. -/
structure ModelOutline where
  name : String
  keys : List String
  relations : List String
  deriving DecidableEq, Repr

/-- The names in an enum, and the number of its first value. -/
structure EnumOutline where
  name : String
  base : Nat
  values : List String
  deriving DecidableEq, Repr

/-- What a schema declares. -/
structure Outline where
  models : List ModelOutline
  enums : List EnumOutline
  envVars : Nat
  deriving DecidableEq, Repr

namespace ModelOutline

/-- The model with one more key, unless it has that key. -/
def addKey (m : ModelOutline) (name : String) : ModelOutline :=
  if name ∈ m.keys then m else { m with keys := m.keys ++ [name] }

/-- The model with one more relation. -/
def addRelation (m : ModelOutline) (name : String) : ModelOutline :=
  { m with relations := m.relations ++ [name] }

/-- The new name of a key. -/
def key? (m : ModelOutline) (name : String) : Option String :=
  if name ∈ m.keys then some (fieldName (m.keys.idxOf name)) else none

/-- The new name of a relation that the `i`-th model declares. -/
def relation? (m : ModelOutline) (i : Nat) (name : String) : Option String :=
  if name ∈ m.relations then some (relationName (modelName i) (m.relations.idxOf name)) else none

@[simp] theorem addKey_name (m : ModelOutline) (name : String) :
    (m.addKey name).name = m.name := by
  unfold addKey
  split <;> rfl

end ModelOutline

namespace EnumOutline

/-- The enum with one more value. -/
def addValue (e : EnumOutline) (name : String) : EnumOutline :=
  { e with values := e.values ++ [name] }

/-- The new name of a value. -/
def value? (e : EnumOutline) (name : String) : Option String :=
  if name ∈ e.values then some (valueName (e.base + e.values.idxOf name)) else none

/-- The scope of an enum, which counts its values unless they are numbered through. -/
def scope (n : Numbering) (e : EnumOutline) : Scope where
  names := .numbered (fun j => valueName (e.base + j)) e.values
  next :=
    match n with
    | .perEnum => e.values.length
    | .global => 0

/-- How many numbers the values of some enums have used up. -/
def used (n : Numbering) (es : List EnumOutline) : Nat :=
  match n with
  | .perEnum => 0
  | .global => (es.map (·.values.length)).sum

end EnumOutline

namespace Outline

/-- Before anything is declared. -/
def empty : Outline := ⟨[], [], 0⟩

/-- The names of the models. -/
def modelNames (o : Outline) : List String := o.models.map (·.name)

/-- The names of the enums. -/
def enumNames (o : Outline) : List String := o.enums.map (·.name)

/-- The new name of a model or an enum. -/
def type? (o : Outline) (name : String) : Option String :=
  if name ∈ o.modelNames then some (modelName (o.modelNames.idxOf name))
  else if name ∈ o.enumNames then some (enumName (o.enumNames.idxOf name))
  else none

/-- The scopes of the models that declare relations. -/
def relationEntries (ms : List ModelOutline) : List (String × Scope) :=
  (ms.mapIdx fun i m => (modelName i, .numbered (relationName (modelName i)) m.relations)).filter
    (·.2.names.size ≠ 0)

/-- The registry in which all this is registered. -/
def registry (n : Numbering) (o : Outline) : Registry where
  numbering := n
  models := .numbered modelName o.modelNames
  fields := .indexed modelName (fun _ m => .numbered fieldName m.keys) o.models
  enums := .numbered enumName o.enumNames
  values := .indexed enumName (fun _ e => e.scope n) o.enums
  relations := ⟨relationEntries o.models⟩
  envVars := o.envVars
  globalValues := EnumOutline.used n o.enums

theorem registry_empty (n : Numbering) : registry n empty = .new n := by
  cases n <;> rfl

variable {n : Numbering} {o : Outline} {ms : List ModelOutline} {m : ModelOutline}
  {es : List EnumOutline} {e : EnumOutline} {env : Nat}

/-! ### Registering -/

theorem hasType_registry (name : String) :
    (o.registry n).hasType name = decide (name ∈ o.modelNames ∨ name ∈ o.enumNames) := by
  simp [Registry.hasType, registry]

theorem registerModel_registry (name : String) :
    (o.registry n).attempt (Registry.registerModel name) =
      if name ∈ o.modelNames ∨ name ∈ o.enumNames then
        .error (.of (.duplicate .model name none))
      else .ok (modelName o.models.length,
        registry n { o with models := o.models ++ [⟨name, [], []⟩] }) := by
  rw [Registry.attempt, Registry.perform_registerModel, hasType_registry]
  by_cases h : name ∈ o.modelNames ∨ name ∈ o.enumNames
  · simp [h, Except.map]
  · have hm : (registry n o).models.size = o.models.length := by simp [registry, modelNames]
    have hset : (registry n o).fields.set (modelName o.models.length) .empty =
        .indexed modelName (fun _ m => .numbered fieldName m.keys) (o.models ++ [⟨name, [], []⟩]) := by
      rw [registry, ← Table.push_indexed]
      exact Table.set_new (Table.keys_mapIdx_ne (fun _ _ => modelName_inj) _ _) _
    have hpush := Table.push_numbered modelName o.modelNames name
    rw [modelNames, List.length_map] at hpush
    simp only [h, decide_false, Bool.false_eq_true, ↓reduceIte, hm, hset, Except.map]
    simp only [registry, modelNames, List.map_append, List.map_cons, List.map_nil, hpush,
      relationEntries, List.mapIdx_concat, List.filter_append]
    simp [enumNames, Table.size, Table.empty]

theorem registerEnum_registry (name : String) :
    (o.registry n).attempt (Registry.registerEnum name) =
      if name ∈ o.modelNames ∨ name ∈ o.enumNames then
        .error (.of (.duplicate .enum name none))
      else .ok (enumName o.enums.length,
        registry n { o with enums := o.enums ++ [⟨name, EnumOutline.used n o.enums, []⟩] }) := by
  rw [Registry.attempt, Registry.perform_registerEnum, hasType_registry]
  by_cases h : name ∈ o.modelNames ∨ name ∈ o.enumNames
  · simp [h, Except.map]
  · have hm : (registry n o).enums.size = o.enums.length := by simp [registry, enumNames]
    have hempty : EnumOutline.scope n ⟨name, EnumOutline.used n o.enums, []⟩ = .empty := by
      cases n <;> rfl
    have hset : (registry n o).values.set (enumName o.enums.length) .empty =
        .indexed enumName (fun _ e => e.scope n)
          (o.enums ++ [⟨name, EnumOutline.used n o.enums, []⟩]) := by
      rw [registry, ← Table.push_indexed, hempty]
      exact Table.set_new (Table.keys_mapIdx_ne (fun _ _ => enumName_inj) _ _) _
    have hpush := Table.push_numbered enumName o.enumNames name
    have hused : EnumOutline.used n (o.enums ++ [⟨name, EnumOutline.used n o.enums, []⟩]) =
        EnumOutline.used n o.enums := by
      cases n <;> simp [EnumOutline.used]
    rw [enumNames, List.length_map] at hpush
    simp only [h, decide_false, Bool.false_eq_true, ↓reduceIte, hm, hset, Except.map]
    simp only [registry, enumNames, List.map_append, List.map_cons, List.map_nil, hpush, hused]
    simp [modelNames]

theorem fields_modelName (k : Nat) : (o.registry n).fields.get? (modelName k) =
    o.models[k]?.map fun m => .numbered fieldName m.keys :=
  Table.get?_indexed k _ _ _ fun _ _ => modelName_inj

theorem values_enumName (k : Nat) :
    (o.registry n).values.get? (enumName k) = o.enums[k]?.map (·.scope n) :=
  Table.get?_indexed k _ _ _ fun _ _ => enumName_inj

/-- A name goes behind those that a counted scope has. -/
theorem attempt_of_enter (shelf : Shelf) {r : Registry} {x : Registry.Step String}
    {owner name : String} {names : List String}
    (h : r.perform x = r.enter shelf owner name (.numbered (shelf.newName owner ·) names)) :
    r.attempt x =
      if name ∈ names then .error (.of (.duplicate shelf.noun name (some owner)))
      else .ok (shelf.newName owner names.length,
        r.put shelf owner (.numbered (shelf.newName owner ·) (names ++ [name]))) := by
  rw [Registry.attempt, h, Registry.enter]
  by_cases hname : name ∈ names
  · simp [hname, Except.map]
  · simp [hname, Except.map, Scope.add, Scope.numbered, ← Table.push_numbered]

theorem registerField_last (name : String) :
    (registry n ⟨ms ++ [m], es, env⟩).attempt (Registry.registerField (modelName ms.length) name) =
      if name ∈ m.keys then
        .error (.of (.duplicate .field name (some (modelName ms.length))))
      else .ok (fieldName m.keys.length, registry n ⟨ms ++ [m.addKey name], es, env⟩) := by
  have hg : (registry n ⟨ms ++ [m], es, env⟩).fields.get? (modelName ms.length) =
      some (.numbered fieldName m.keys) := by
    rw [fields_modelName]
    simp
  have henter := Registry.perform_registerField (registry n ⟨ms ++ [m], es, env⟩)
    (modelName ms.length) name
  rw [hg] at henter
  rw [attempt_of_enter .fields henter]
  by_cases h : name ∈ m.keys
  · rw [if_pos h, if_pos h, Shelf.noun]
  · have hk : (m.addKey name).keys = m.keys ++ [name] := by simp [ModelOutline.addKey, h]
    have hset := Table.set_indexed_concat (fun _ _ => modelName_inj)
      (fun _ m => Scope.numbered fieldName m.keys) ms m (m.addKey name)
    rw [hk] at hset
    simp only [h, ↓reduceIte, Registry.put, Registry.mapScopes, Shelf.newName]
    simp only [registry, modelNames, hset]
    simp [ModelOutline.addKey, h, relationEntries, enumNames]

theorem values_last : (registry n ⟨ms, es ++ [e], env⟩).values.get? (enumName es.length) =
    some (e.scope n) := by
  rw [values_enumName]
  simp

/-- In both modes the number is the base and the count of earlier values of this enum. -/
theorem registerValue_last (he : e.base = EnumOutline.used n es) (name : String) :
    (registry n ⟨ms, es ++ [e], env⟩).attempt (Registry.registerValue (enumName es.length) name) =
      if name ∈ e.values then
        .error (.of (.duplicate .enumValue name (some (enumName es.length))))
      else .ok (valueName (e.base + e.values.length),
        registry n ⟨ms, es ++ [e.addValue name], env⟩) := by
  have hset := Table.set_indexed_concat (fun _ _ => enumName_inj)
    (fun _ e => EnumOutline.scope n e) es e (e.addValue name)
  rw [EnumOutline.addValue] at hset ⊢
  cases n with
  | perEnum =>
    have hscope : ∀ values, EnumOutline.scope .perEnum ⟨e.name, e.base, values⟩ =
        .numbered valueName values := by
      intro values
      simp [EnumOutline.scope, Scope.numbered, he, EnumOutline.used]
    have henter := Registry.perform_registerValue_perEnum
      (r := registry .perEnum ⟨ms, es ++ [e], env⟩) rfl (enumName es.length) name
    rw [values_last, hscope e.values] at henter
    rw [attempt_of_enter .values henter]
    by_cases h : name ∈ e.values
    · rw [if_pos h, if_pos h, Shelf.noun]
    · rw [hscope] at hset
      simp only [h, ↓reduceIte, Registry.put, Registry.mapScopes, Shelf.newName]
      simp only [registry, enumNames, hset]
      simp [he, EnumOutline.used, modelNames]
  | global =>
    rw [Registry.attempt, Registry.perform_registerValue_global rfl, values_last]
    simp only [Registry.enterGlobal, EnumOutline.scope, Table.contains_numbered, decide_eq_true_eq]
    by_cases h : name ∈ e.values
    · simp [h, Except.map]
    · have hused : (registry .global ⟨ms, es ++ [e], env⟩).globalValues =
          e.base + e.values.length := by
        simp [registry, EnumOutline.used, he]
      have hpush := Table.push_numbered (fun j => valueName (e.base + j)) e.values name
      simp only [EnumOutline.scope, ← hpush] at hset
      simp only [h, ↓reduceIte, Except.map, hused]
      simp only [registry, enumNames, EnumOutline.scope, hset]
      simp [he, EnumOutline.used, modelNames, Nat.add_assoc]

/-! ### Looking up -/

theorem resolveType_registry (name : String) : (o.registry n).resolveType name =
    match o.type? name with
    | some new => .ok new
    | none => .error (.of (.unresolved .modelOrEnum name none)) := by
  simp only [Registry.resolveType, registry, Table.get?_numbered, type?]
  by_cases hm : name ∈ o.modelNames
  · simp [hm]
  · by_cases he : name ∈ o.enumNames <;> simp [hm, he]

theorem found_field {k : Nat} (hk : o.models[k]? = some m) (name : String) :
    (o.registry n).found .fields (modelName k) name = m.key? name := by
  rw [Registry.found, Registry.scopes, fields_modelName, hk]
  exact Table.get?_numbered ..

theorem found_value {k : Nat} (hk : o.enums[k]? = some e) (name : String) :
    (o.registry n).found .values (enumName k) name = e.value? name := by
  rw [Registry.found, Registry.scopes, values_enumName, hk]
  exact Table.get?_numbered ..

/-- A name in `@@unique` takes the number of the key, whether it was there before or not. -/
theorem ensureField_last (name : String) :
    (registry n ⟨ms ++ [m], es, env⟩).attempt (Registry.ensureField (modelName ms.length) name) =
      .ok (fieldName ((m.addKey name).keys.idxOf name),
        registry n ⟨ms ++ [m.addKey name], es, env⟩) := by
  rw [Registry.attempt, Registry.perform_ensureField, Registry.resolveField, Registry.resolve,
    found_field (m := m) (by simp) name]
  by_cases h : name ∈ m.keys
  · simp [ModelOutline.key?, ModelOutline.addKey, h, Except.map]
  · simp only [ModelOutline.key?, h, ↓reduceIte]
    refine (registerField_last name).trans ?_
    rw [if_neg h]
    simp [ModelOutline.addKey, h, List.idxOf_append]

@[simp] theorem isModel_modelName (k : Nat) :
    (o.registry n).isModel (modelName k) = decide (k < o.models.length) :=
  Table.contains_indexed (fun _ _ => modelName_inj) _ _ k

@[simp] theorem isEnum_enumName (k : Nat) :
    (o.registry n).isEnum (enumName k) = decide (k < o.enums.length) :=
  Table.contains_indexed (fun _ _ => enumName_inj) _ _ k

theorem isModel_of_ne {name : String} (h : ∀ i, name ≠ modelName i) :
    (o.registry n).isModel name = false := by
  simp [Registry.isModel, Table.contains, registry, Table.get?_indexed_of_ne _ _ h]

theorem isEnum_of_ne {name : String} (h : ∀ i, name ≠ enumName i) :
    (o.registry n).isEnum name = false := by
  simp [Registry.isEnum, Table.contains, registry, Table.get?_indexed_of_ne _ _ h]

@[simp] theorem isModel_enumName (k : Nat) : (o.registry n).isModel (enumName k) = false :=
  isModel_of_ne fun i => (modelName_ne_enumName i k).symm

@[simp] theorem isEnum_modelName (k : Nat) : (o.registry n).isEnum (modelName k) = false :=
  isEnum_of_ne fun i => modelName_ne_enumName k i

@[simp] theorem isModel_unsupported : (o.registry n).isModel "Unsupported" = false :=
  isModel_of_ne unsupported_ne_modelName

@[simp] theorem isEnum_unsupported : (o.registry n).isEnum "Unsupported" = false :=
  isEnum_of_ne unsupported_ne_enumName

/-! ### Relations -/

theorem lookup_relationEntries_of_ne {name : String} (h : ∀ i, name ≠ modelName i) :
    (relationEntries ms).lookup name = none := by
  simp only [relationEntries, List.lookup_eq_none_iff, List.mem_filter, List.mem_mapIdx]
  rintro p ⟨⟨i, hi, rfl⟩, -⟩
  simpa using h i

theorem nodup_modelNames {β : Type} (entry : Nat → ModelOutline → β) (ms : List ModelOutline) :
    ((ms.mapIdx fun i m => (modelName i, entry i m)).map (·.1)).Nodup := by
  rw [List.Nodup, List.pairwise_iff_getElem]
  intro i j hi hj hij
  simp only [List.getElem_map, List.getElem_mapIdx]
  exact fun h => absurd (modelName_inj h) (by omega)

theorem lookup_relationEntries (ms : List ModelOutline) (k : Nat) :
    (relationEntries ms).lookup (modelName k) =
      (ms[k]?.map fun m => Scope.numbered (relationName (modelName k)) m.relations).filter
        (·.names.size ≠ 0) := by
  have h1 := lookup_filter (fun s : Scope => decide (s.names.size ≠ 0)) (modelName k) _
    (nodup_modelNames (fun i m => Scope.numbered (relationName (modelName i)) m.relations) ms)
  have h2 := Table.get?_indexed k ms modelName
    (fun i m => Scope.numbered (relationName (modelName i)) m.relations) fun _ _ => modelName_inj
  rw [relationEntries, h1]
  exact congrArg (Option.filter _) h2

theorem relationScope_modelName {k : Nat} (hk : o.models[k]? = some m) :
    (o.registry n).relationScope (modelName k) =
      .numbered (relationName (modelName k)) m.relations := by
  have hg : (o.registry n).relations.get? (modelName k) = (relationEntries o.models).lookup _ := rfl
  rw [Registry.relationScope, hg, lookup_relationEntries, hk]
  cases hr : m.relations <;> simp [hr, Option.filter, Scope.numbered, Scope.empty]

theorem found_relation {k : Nat} (hk : o.models[k]? = some m) (name : String) :
    (o.registry n).found .relations (modelName k) name = m.relation? k name := by
  rw [Registry.found_relations, relationScope_modelName hk]
  exact Table.get?_numbered ..

theorem resolveRelation_of_ne {target : String} (h : ∀ i, target ≠ modelName i) (name : String) :
    (o.registry n).resolveRelation target name =
      .error (.of (.unresolved .relation name (some target))) := by
  have hg : (o.registry n).relations.get? target = (relationEntries o.models).lookup _ := rfl
  rw [Registry.resolveRelation, Registry.resolve, Registry.found, Registry.scopes, hg,
    lookup_relationEntries_of_ne h]
  rfl

theorem relationEntries_concat (ms : List ModelOutline) (m : ModelOutline) :
    relationEntries (ms ++ [m]) = relationEntries ms ++
      if m.relations = [] then []
      else [(modelName ms.length, .numbered (relationName (modelName ms.length)) m.relations)] := by
  simp only [relationEntries, List.mapIdx_concat, List.filter_append]
  by_cases h : m.relations = [] <;> simp [h]

theorem relationEntries_ne (ms : List ModelOutline) :
    ∀ p ∈ relationEntries ms, p.1 ≠ modelName ms.length := fun p hp =>
  Table.keys_mapIdx_ne (fun _ _ => modelName_inj) _ ms p (List.mem_filter.mp hp).1

theorem registerRelation_last (name : String) :
    (registry n ⟨ms ++ [m], es, env⟩).attempt
        (Registry.registerRelation (modelName ms.length) name) =
      if name ∈ m.relations then
        .error (.of (.duplicate .relation name (some (modelName ms.length))))
      else .ok (relationName (modelName ms.length) m.relations.length,
        registry n ⟨ms ++ [m.addRelation name], es, env⟩) := by
  -- the scope of the model is put in with its first relation, and replaced from then on
  have hset : (registry n ⟨ms ++ [m], es, env⟩).relations.set (modelName ms.length)
      (.numbered (relationName (modelName ms.length)) (m.relations ++ [name])) =
      ⟨relationEntries (ms ++ [m.addRelation name])⟩ := by
    show (Table.mk (relationEntries (ms ++ [m]))).set _ _ = _
    rw [relationEntries_concat, relationEntries_concat]
    by_cases hr : m.relations = []
    · rw [if_pos hr, List.append_nil, Table.set_new (relationEntries_ne ms)]
      simp [ModelOutline.addRelation]
    · rw [if_neg hr, Table.set_concat (relationEntries_ne ms)]
      simp [ModelOutline.addRelation]
  have henter := Registry.perform_registerRelation (registry n ⟨ms ++ [m], es, env⟩)
    (modelName ms.length) name
  rw [isModel_modelName, relationScope_modelName (m := m) (by simp), if_pos (by simp)] at henter
  rw [attempt_of_enter .relations henter]
  by_cases h : name ∈ m.relations
  · rw [if_pos h, if_pos h, Shelf.noun]
  · simp only [h, ↓reduceIte, Registry.put, Registry.mapScopes, Shelf.newName, hset]
    simp [registry, modelNames, enumNames, ModelOutline.addRelation, Table.indexed]

end Outline

end Pseudonym

/-
# Restoring names from the mapping

The tables of a registry can be read backwards: no two names of a table have
the same entry. A registry thus determines a renaming that leads from new
names to old ones, `Registry.restoring`, in which the scopes of a model or an
enum are those that the tables have under its new name. It restores every
name of an obfuscated schema, at every place where one was replaced.

Key definitions: `Table.nameOf?`, `Registry.Injective`, `Registry.restoring`.
-/
import Pseudonym.Proofs.Obfuscate.Unchanged

namespace Pseudonym

/-! ### Tables backwards -/

namespace Table

/-- The name that has this entry. -/
def nameOf? (t : Table String) (entry : String) : Option String :=
  (t.entries.find? (·.2 == entry)).map (·.1)

/-- No two names have the same entry. -/
def Injective (t : Table String) : Prop := (t.entries.map (·.2)).Nodup

theorem injective_numbered {k : Nat → String} (hk : ∀ i j, k i = k j → i = j)
    (names : List String) : (numbered k names).Injective := by
  have hentries : (numbered k names).entries.map (·.2) = (List.range names.length).map k := by
    simp [numbered, List.mapIdx_eq_zipIdx_map, List.range_eq_range', ← List.zipIdx_map_snd]
  rw [Injective, hentries]
  exact List.nodup_range.map fun i j => hk i j

/-- The `i`-th entry belongs to the `i`-th name. -/
theorem nameOf?_numbered (i : Nat) : ∀ (names : List String) (k : Nat → String),
    (∀ i j, k i = k j → i = j) → (numbered k names).nameOf? (k i) = names[i]? := by
  induction i with
  | zero =>
    intro names k _
    cases names <;> simp [numbered, nameOf?]
  | succ i ih =>
    intro names k hk
    cases names with
    | nil => simp [numbered, nameOf?]
    | cons first rest =>
      have hne : (k 0 == k (i + 1)) = false := by
        simpa using fun h => absurd (hk _ _ h) (by omega)
      have ih' := ih rest (fun i => k (i + 1)) fun i j h => Nat.succ.inj (hk _ _ h)
      simp only [numbered, nameOf?, List.mapIdx_cons, List.find?_cons, hne] at ih' ⊢
      simpa using ih'

theorem nameOf?_numbered_of_ne {k : Nat → String} (names : List String) {entry : String}
    (h : ∀ i, entry ≠ k i) : (numbered k names).nameOf? entry = none := by
  simp only [nameOf?, numbered, Option.map_eq_none_iff, List.find?_eq_none, List.mem_mapIdx]
  rintro p ⟨i, hi, rfl⟩
  simpa using (h i).symm

/-- The entry of a name belongs to it. -/
theorem nameOf?_numbered_idxOf {k : Nat → String} (hk : ∀ i j, k i = k j → i = j)
    {names : List String} {name : String} (h : name ∈ names) :
    (numbered k names).nameOf? (k (names.idxOf name)) = some name := by
  rw [nameOf?_numbered _ _ _ hk]
  exact List.getElem?_idxOf h

end Table

namespace Registry

/-- Every table of names is injective. -/
structure Injective (r : Registry) : Prop where
  models : r.models.Injective
  enums : r.enums.Injective
  scopes : ∀ shelf, ∀ p ∈ (r.scopes shelf).entries, p.2.names.Injective

/-- The name that was replaced by a new one in the scope of an owner. -/
def restored (r : Registry) (shelf : Shelf) (owner new : String) : String :=
  (((r.scopes shelf).get? owner).bind (·.names.nameOf? new)).getD new

/-- The renaming that looks new names up in the tables. -/
def restoring (r : Registry) : Renaming where
  type new := ((r.models.nameOf? new).or (r.enums.nameOf? new)).getD new
  field := r.restored .fields
  value := r.restored .values
  relation := r.restored .relations

theorem restored_of_get? {r : Registry} (shelf : Shelf) {owner : String} {scope : Scope}
    {k : Nat → String} {names : List String} {x : String}
    (hscope : (r.scopes shelf).get? owner = some scope) (hnames : scope.names = .numbered k names)
    (hk : ∀ i j, k i = k j → i = j) (hx : x ∈ names) :
    r.restored shelf owner (k (names.idxOf x)) = x := by
  rw [restored, hscope, Option.bind_some, hnames, Table.nameOf?_numbered_idxOf hk hx,
    Option.getD_some]

end Registry

/-! ### The registry of an outline -/

namespace Outline

variable {n : Numbering} {o : Outline} {m : ModelOutline} {e : EnumOutline} {k : Nat} {x : String}

theorem valueName_base_inj (base i j : Nat) (h : valueName (base + i) = valueName (base + j)) :
    i = j := by
  have hsum : base + i = base + j := valueName_inj h
  omega

theorem injective_registry (n : Numbering) (o : Outline) : (o.registry n).Injective where
  models := Table.injective_numbered (fun _ _ => modelName_inj) _
  enums := Table.injective_numbered (fun _ _ => enumName_inj) _
  scopes shelf p hp := by
    cases shelf with
    | fields =>
      obtain ⟨i, hi, rfl⟩ := List.mem_mapIdx.mp hp
      exact Table.injective_numbered (fun _ _ => fieldName_inj) _
    | values =>
      obtain ⟨i, hi, rfl⟩ := List.mem_mapIdx.mp hp
      exact Table.injective_numbered (valueName_base_inj _) _
    | relations =>
      obtain ⟨i, hi, rfl⟩ := List.mem_mapIdx.mp (List.mem_filter.mp hp).1
      exact Table.injective_numbered (fun _ _ => relationName_inj) _

theorem restoring_model (hx : x ∈ o.modelNames) :
    (o.registry n).restoring.type (modelName (o.modelNames.idxOf x)) = x := by
  have hlook : (o.registry n).models.nameOf? (modelName (o.modelNames.idxOf x)) = some x :=
    Table.nameOf?_numbered_idxOf (fun _ _ => modelName_inj) hx
  simp only [Registry.restoring, hlook, Option.some_or, Option.getD_some]

theorem restoring_enum (hx : x ∈ o.enumNames) :
    (o.registry n).restoring.type (enumName (o.enumNames.idxOf x)) = x := by
  have hmodel : (o.registry n).models.nameOf? (enumName (o.enumNames.idxOf x)) = none :=
    Table.nameOf?_numbered_of_ne _ fun i h => modelName_ne_enumName _ _ h.symm
  have hlook : (o.registry n).enums.nameOf? (enumName (o.enumNames.idxOf x)) = some x :=
    Table.nameOf?_numbered_idxOf (fun _ _ => enumName_inj) hx
  simp only [Registry.restoring, hmodel, hlook, Option.none_or, Option.getD_some]

theorem restoring_field (hk : o.models[k]? = some m) (hx : x ∈ m.keys) :
    (o.registry n).restoring.field (modelName k) (m.newKey x) = x := by
  have hscope := fields_modelName (n := n) (o := o) k
  rw [hk, Option.map_some] at hscope
  exact Registry.restored_of_get? .fields hscope rfl (fun _ _ => fieldName_inj) hx

theorem restoring_value (hk : o.enums[k]? = some e) (hx : x ∈ e.values) :
    (o.registry n).restoring.value (enumName k) (e.newValue x) = x := by
  have hscope := values_enumName (n := n) (o := o) k
  rw [hk, Option.map_some] at hscope
  exact Registry.restored_of_get? .values hscope rfl (valueName_base_inj e.base) hx

theorem restoring_relation (hk : o.models[k]? = some m) (hx : x ∈ m.relations) :
    (o.registry n).restoring.relation (modelName k) (m.newRelation k x) = x := by
  have hsize : (Scope.numbered (relationName (modelName k)) m.relations).names.size ≠ 0 := by
    rw [Scope.names_numbered, Table.size_numbered]
    exact Nat.ne_of_gt (List.length_pos_of_mem hx)
  have hscope := lookup_relationEntries o.models k
  rw [hk, Option.map_some, Option.filter, if_pos (decide_eq_true hsize)] at hscope
  exact Registry.restored_of_get? .relations hscope rfl (fun _ _ => relationName_inj) hx

end Outline

/-! ### Restoring a schema -/

namespace Schema

variable {n : Numbering} {s t : Schema} {r : Registry}

/-- The tables lead from new names back to the old ones. The number of environment variables is
not one of them. -/
theorem leads_restoring (h : s.typeNames.Nodup) (env : Nat) :
    s.Leads (s.outline n).newNames
      (Outline.registry n { s.outline n with envVars := env }).restoring .same := by
  refine ⟨fun x _ hx hbuiltin => hx ?_, fun x hx => ?_, fun m hm x hx => ?_, fun m hm x hx => ?_,
    fun e he x hx => ?_⟩
  · exact (s.outline n).newNames_faithful.builtin x hbuiltin
  · by_cases hmodel : x ∈ (s.outline n).modelNames
    · rw [Outline.newNames_type_of_model hmodel]
      exact Outline.restoring_model (o := { s.outline n with envVars := env }) hmodel
    · have henum := (mem_typeNames.mp hx).resolve_left hmodel
      rw [Outline.newNames_type_of_enum hmodel henum]
      exact Outline.restoring_enum (o := { s.outline n with envVars := env }) henum
  · rw [newNames_type_model hm, newNames_field h hm hx]
    exact Outline.restoring_field (o := { s.outline n with envVars := env }) (getElem?_model h hm)
      (m.mem_keys_outline.mpr hx)
  · rw [newNames_type_model hm, newNames_relation h hm hx]
    exact Outline.restoring_relation (o := { s.outline n with envVars := env })
      (getElem?_model h hm) (m.relations_outline ▸ hx)
  · obtain ⟨o, ho, hvalues, hvalue⟩ := newNames_value (n := n) h he hx
    rw [newNames_type_enum h he, hvalue]
    exact Outline.restoring_value (o := { s.outline n with envVars := env }) ho (hvalues ▸ hx)

end Schema

end Pseudonym

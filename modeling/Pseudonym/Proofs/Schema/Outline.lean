/-
# Outlines of schemas

The outline that the declarations of a schema lead to, one after the other. A
key or a relation has the place in the outline that it had when it was added:
what is added later stands behind it. So the new names can be read off the
finished outline.
-/
import Pseudonym.Proofs.Names.Outline
import Pseudonym.Proofs.Schema.Scopes

namespace Pseudonym

/-! ### Models -/

namespace ModelOutline

/-- The new name of a key. -/
def newKey (m : ModelOutline) (name : String) : String := fieldName (m.keys.idxOf name)

/-- The new name of a relation that the `i`-th model declares. -/
def newRelation (m : ModelOutline) (i : Nat) (name : String) : String :=
  relationName (modelName i) (m.relations.idxOf name)

/-- The model with more keys. -/
def addKeys (m : ModelOutline) (names : List String) : ModelOutline := names.foldl addKey m

/-- The model with more relations. -/
def addRelations (m : ModelOutline) (names : List String) : ModelOutline :=
  { m with relations := m.relations ++ names }

/-- The model with one more line. -/
def addMember (m : ModelOutline) (member : ModelMember) : ModelOutline :=
  (m.addKeys member.keyNames).addRelations member.relationNames

@[simp] theorem addKey_relations (m : ModelOutline) (name : String) :
    (m.addKey name).relations = m.relations := by
  unfold addKey
  split <;> rfl

@[simp] theorem mem_keys_addKey (m : ModelOutline) (name x : String) :
    x ∈ (m.addKey name).keys ↔ x ∈ m.keys ∨ x = name := by
  unfold addKey
  split
  · constructor
    · exact Or.inl
    · rintro (h | rfl)
      · exact h
      · assumption
  · simp

theorem prefix_addKey (m : ModelOutline) (name : String) : m.keys <+: (m.addKey name).keys := by
  unfold addKey
  split
  · exact List.prefix_rfl
  · exact List.prefix_append _ _

@[simp] theorem addKeys_relations : ∀ (names : List String) (m : ModelOutline),
    (m.addKeys names).relations = m.relations
  | [], _ => rfl
  | name :: names, m => by
    show ((m.addKey name).addKeys names).relations = _
    rw [addKeys_relations names, addKey_relations]

@[simp] theorem addKeys_name : ∀ (names : List String) (m : ModelOutline),
    (m.addKeys names).name = m.name
  | [], _ => rfl
  | name :: names, m => by
    show ((m.addKey name).addKeys names).name = _
    rw [addKeys_name names, addKey_name]

@[simp] theorem mem_keys_addKeys (x : String) : ∀ (names : List String) (m : ModelOutline),
    x ∈ (m.addKeys names).keys ↔ x ∈ m.keys ∨ x ∈ names
  | [], _ => by simp [addKeys]
  | name :: names, m => by
    show x ∈ ((m.addKey name).addKeys names).keys ↔ _
    rw [mem_keys_addKeys x names, mem_keys_addKey, List.mem_cons, or_assoc]

theorem prefix_addKeys : ∀ (names : List String) (m : ModelOutline),
    m.keys <+: (m.addKeys names).keys
  | [], _ => List.prefix_rfl
  | name :: names, m => (m.prefix_addKey name).trans (prefix_addKeys names (m.addKey name))

/-- The first model is what there is of the second one before its last lines are added. -/
structure Within (m m' : ModelOutline) : Prop where
  keys : m.keys <+: m'.keys
  relations : m.relations <+: m'.relations

theorem Within.refl (m : ModelOutline) : m.Within m := ⟨List.prefix_rfl, List.prefix_rfl⟩

theorem Within.trans {m m' m'' : ModelOutline} (h : m.Within m') (h' : m'.Within m'') :
    m.Within m'' := ⟨h.keys.trans h'.keys, h.relations.trans h'.relations⟩

theorem within_addKeys (m : ModelOutline) (names : List String) : m.Within (m.addKeys names) :=
  ⟨prefix_addKeys names m, (addKeys_relations names m).symm ▸ List.prefix_rfl⟩

theorem within_addRelations (m : ModelOutline) (names : List String) :
    m.Within (m.addRelations names) := ⟨List.prefix_rfl, List.prefix_append _ _⟩

theorem within_addMember (m : ModelOutline) (member : ModelMember) : m.Within (m.addMember member) :=
  (m.within_addKeys _).trans (within_addRelations _ _)

theorem addRelations_nil (m : ModelOutline) : m.addRelations [] = m := by
  simp [addRelations]

theorem addRelations_foldl {α : Type} (name? : α → Option String) (l : List α) (m : ModelOutline) :
    l.foldl (fun m a => m.addRelations (name? a).toList) m = m.addRelations (l.filterMap name?) :=
  foldl_add addRelations_nil (by simp [addRelations]) name? l m

theorem addKeys_foldl {α : Type} (name? : α → Option String) (l : List α) (m : ModelOutline) :
    l.foldl (fun m a => m.addKeys (name? a).toList) m = m.addKeys (l.filterMap name?) :=
  foldl_add (fun _ => rfl) (by simp [addKeys]) name? l m

theorem newKey_injOn (m : ModelOutline) {x y : String} (hx : x ∈ m.keys)
    (h : m.newKey x = m.newKey y) : x = y := (List.idxOf_inj hx).mp (fieldName_inj h)

theorem newRelation_injOn (m : ModelOutline) {i : Nat} {x y : String} (hx : x ∈ m.relations)
    (h : m.newRelation i x = m.newRelation i y) : x = y := (List.idxOf_inj hx).mp (relationName_inj h)

end ModelOutline

/-- The outline of a model. -/
def Model.outline (m : Model) : ModelOutline :=
  m.members.foldl ModelOutline.addMember ⟨m.name.name, [], []⟩

namespace Model

theorem mem_keyNames {m : Model} {x : String} :
    x ∈ m.keyNames ↔ x ∈ m.members.flatMap (·.keyNames) := by
  simp only [keyNames, fieldNames, fields, attributes, List.mem_append, List.mem_map,
    List.mem_filterMap, List.mem_flatMap]
  constructor
  · rintro (⟨f, ⟨member, hm, hf⟩, rfl⟩ | ⟨a, ⟨member, hm, ha⟩, hx⟩)
    · refine ⟨member, hm, ?_⟩
      cases member <;> cases hf
      exact List.mem_singleton.mpr rfl
    · refine ⟨member, hm, ?_⟩
      cases member <;> cases ha
      exact hx
  · rintro ⟨member, hm, hx⟩
    cases member with
    | field f => exact .inl ⟨f, ⟨_, hm, rfl⟩, (List.mem_singleton.mp hx).symm⟩
    | blockAttribute a => exact .inr ⟨a.attr, ⟨_, hm, rfl⟩, hx⟩
    | comment c => cases hx

theorem mem_keys_foldl {x : String} : ∀ (members : List ModelMember) (m : ModelOutline),
    x ∈ (members.foldl ModelOutline.addMember m).keys ↔
      x ∈ m.keys ∨ x ∈ members.flatMap (·.keyNames)
  | [], _ => by simp
  | member :: rest, m => by
    rw [List.foldl_cons, mem_keys_foldl rest, List.flatMap_cons, List.mem_append, ← or_assoc]
    exact or_congr_left (ModelOutline.mem_keys_addKeys x member.keyNames m)

theorem relations_foldl : ∀ (members : List ModelMember) (m : ModelOutline),
    (members.foldl ModelOutline.addMember m).relations =
      m.relations ++ members.flatMap (·.relationNames)
  | [], _ => by simp
  | member :: rest, m => by
    rw [List.foldl_cons, relations_foldl rest, List.flatMap_cons, ← List.append_assoc]
    simp [ModelOutline.addMember, ModelOutline.addRelations]

theorem name_foldl : ∀ (members : List ModelMember) (m : ModelOutline),
    (members.foldl ModelOutline.addMember m).name = m.name
  | [], _ => rfl
  | member :: rest, m => by
    rw [List.foldl_cons, name_foldl rest]
    exact ModelOutline.addKeys_name member.keyNames m

theorem mem_keys_outline {m : Model} {x : String} : x ∈ m.outline.keys ↔ x ∈ m.keyNames := by
  rw [outline, mem_keys_foldl, mem_keyNames]
  simp

theorem relations_outline (m : Model) : m.outline.relations = m.relationNames := by
  rw [outline, relations_foldl]
  rfl

theorem name_outline (m : Model) : m.outline.name = m.name.name := name_foldl _ _

end Model

/-! ### Enums -/

namespace EnumOutline

/-- The enum with more values. -/
def addValues (e : EnumOutline) (names : List String) : EnumOutline :=
  { e with values := e.values ++ names }

theorem addValues_nil (e : EnumOutline) : e.addValues [] = e := by simp [addValues]

theorem addValues_foldl {α : Type} (name? : α → Option String) (l : List α) (e : EnumOutline) :
    l.foldl (fun e a => e.addValues (name? a).toList) e = e.addValues (l.filterMap name?) :=
  foldl_add addValues_nil (by simp [addValues]) name? l e

/-- The first enum is what there is of the second one before its last values are added. -/
structure Within (e e' : EnumOutline) : Prop where
  base : e.base = e'.base
  values : e.values <+: e'.values

theorem Within.refl (e : EnumOutline) : e.Within e := ⟨rfl, List.prefix_rfl⟩

theorem Within.trans {e e' e'' : EnumOutline} (h : e.Within e') (h' : e'.Within e'') :
    e.Within e'' := ⟨h.base.trans h'.base, h.values.trans h'.values⟩

theorem within_addValues (e : EnumOutline) (names : List String) : e.Within (e.addValues names) :=
  ⟨rfl, List.prefix_append _ _⟩

/-- The new name of a value. -/
def newValue (e : EnumOutline) (name : String) : String := valueName (e.base + e.values.idxOf name)

theorem newValue_injOn (e : EnumOutline) {x y : String} (hx : x ∈ e.values)
    (h : e.newValue x = e.newValue y) : x = y := by
  have hi : e.base + e.values.idxOf x = e.base + e.values.idxOf y := valueName_inj h
  exact (List.idxOf_inj hx).mp (by omega)

end EnumOutline

/-- The outline of an enum whose first value has this number. -/
def Enum.outline (base : Nat) (e : Enum) : EnumOutline := ⟨e.name.name, base, e.valueNames⟩

/-! ### Schemas -/

namespace Outline

/-- The names of the models, then those of the enums. -/
def typeNames (o : Outline) : List String := o.modelNames ++ o.enumNames

/-- The outline with one more declaration. -/
def addDeclaration (n : Numbering) (o : Outline) : Declaration → Outline
  | .model m => { o with models := o.models ++ [m.outline] }
  | .enum e => { o with enums := o.enums ++ [e.outline (EnumOutline.used n o.enums)] }
  | .config _ => o
  | .comments _ => o

theorem mem_typeNames_addDeclaration (n : Numbering) (o : Outline) (d : Declaration) (x : String) :
    x ∈ (o.addDeclaration n d).typeNames ↔ x ∈ o.typeNames ∨ x ∈ d.typeName?.toList := by
  cases d with
  | model m => simp [addDeclaration, typeNames, modelNames, enumNames, Declaration.typeName?,
      Model.name_outline, or_assoc, or_comm]
  | enum e => simp [addDeclaration, typeNames, modelNames, enumNames, Declaration.typeName?,
      Enum.outline, or_assoc]
  | config b => simp [addDeclaration, Declaration.typeName?]
  | comments b => simp [addDeclaration, Declaration.typeName?]

/-- The first outline is what there is of the second one before its last declarations. -/
structure Within (o o' : Outline) : Prop where
  models : o.models <+: o'.models
  enums : o.enums <+: o'.enums

theorem Within.refl (o : Outline) : o.Within o := ⟨List.prefix_rfl, List.prefix_rfl⟩

theorem Within.trans {o o' o'' : Outline} (h : o.Within o') (h' : o'.Within o'') : o.Within o'' :=
  ⟨h.models.trans h'.models, h.enums.trans h'.enums⟩

theorem within_addDeclaration (n : Numbering) (o : Outline) (d : Declaration) :
    o.Within (o.addDeclaration n d) := by
  cases d with
  | model m => exact ⟨List.prefix_append _ _, List.prefix_rfl⟩
  | enum e => exact ⟨List.prefix_rfl, List.prefix_append _ _⟩
  | config b => exact .refl o
  | comments b => exact .refl o

end Outline

/-- The outline of a schema. -/
def Schema.outline (n : Numbering) (s : Schema) : Outline :=
  s.declarations.foldl (Outline.addDeclaration n) .empty

namespace Schema

variable {n : Numbering}

theorem models_foldl : ∀ (ds : List Declaration) (o : Outline),
    (ds.foldl (Outline.addDeclaration n) o).models =
      o.models ++ (ds.filterMap (·.model?)).map (·.outline)
  | [], _ => by simp
  | d :: ds, o => by
    rw [List.foldl_cons, models_foldl ds]
    cases d <;> simp [Outline.addDeclaration, Declaration.model?]

theorem models_outline (s : Schema) : (s.outline n).models = s.models.map (·.outline) :=
  models_foldl s.declarations .empty

/-- The names in an enum, without the number of its first value. -/
def enumNames (e : EnumOutline) : String × List String := (e.name, e.values)

theorem enums_foldl : ∀ (ds : List Declaration) (o : Outline),
    (ds.foldl (Outline.addDeclaration n) o).enums.map enumNames =
      o.enums.map enumNames ++ (ds.filterMap (·.enum?)).map fun e => (e.name.name, e.valueNames)
  | [], _ => by simp
  | d :: ds, o => by
    rw [List.foldl_cons, enums_foldl ds]
    cases d <;> simp [Outline.addDeclaration, Declaration.enum?, enumNames, Enum.outline]

theorem enums_outline (s : Schema) : (s.outline n).enums.map enumNames =
    s.enums.map fun e => (e.name.name, e.valueNames) :=
  enums_foldl s.declarations .empty

end Schema

end Pseudonym

/-
# Canonical numbers

The numbers in the new names are places in lists that can be read off a
schema. Models and enums are numbered in the order of the text. The keys of a
model, which are its fields and the names of its unique keys, are listed in
the order of its lines, and of the arguments on a line; a key that comes again
keeps its number, so fields that are declared next to each other can have
numbers apart. Relations are numbered in the order of the attributes that
declare them, and so are the names of indexes. The tables of the registry are
these lists.

Key definitions: `Model.distinctKeys`, `Model.NumberedAs`, `Schema.NumberedAs`.
-/
import Pseudonym.Proofs.Obfuscate.Reordering
import Pseudonym.Proofs.Obfuscate.Stable

namespace Pseudonym

/-! ### Keys -/

/-- The keys of a model, each where it comes first on the lines of the model. -/
def Model.distinctKeys (m : Model) : List String := (m.members.flatMap (·.keyNames)).eraseDups

namespace ModelOutline

variable {m : ModelOutline} {l : List String}

theorem keys_addKey (h : m.keys = l.eraseDups) (x : String) :
    (m.addKey x).keys = (l ++ [x]).eraseDups := by
  have hmem : x ∈ m.keys ↔ x ∈ l := by rw [h, List.mem_eraseDups]
  rw [List.eraseDups_append, addKey, ← h]
  by_cases hx : x ∈ l
  · simp [List.removeAll, hmem, hx]
  · simp [List.removeAll, hmem, hx, List.eraseDups_cons]

theorem keys_addKeys : ∀ (names : List String) {m : ModelOutline} {l : List String},
    m.keys = l.eraseDups → (m.addKeys names).keys = (l ++ names).eraseDups
  | [], _, _, h => by rw [List.append_nil, ← h]; rfl
  | x :: names, _, _, h => by
    rw [List.append_cons, ← keys_addKeys names (keys_addKey h x)]
    rfl

end ModelOutline

namespace Model

theorem keys_foldl : ∀ (members : List ModelMember) {m : ModelOutline} {l : List String},
    m.keys = l.eraseDups → (members.foldl ModelOutline.addMember m).keys =
      (l ++ members.flatMap (·.keyNames)).eraseDups
  | [], _, _, h => by rw [List.flatMap_nil, List.append_nil, ← h]; rfl
  | member :: rest, m, l, h => by
    have hmember : (m.addMember member).keys = (l ++ member.keyNames).eraseDups :=
      ModelOutline.keys_addKeys member.keyNames h
    rw [List.foldl_cons, keys_foldl rest hmember, List.flatMap_cons, List.append_assoc]

/-- The outline of a model lists its keys as they come first. -/
theorem keys_outline (m : Model) : m.outline.keys = m.distinctKeys :=
  keys_foldl m.members (m := ⟨m.name.name, [], []⟩) (l := []) rfl

end Model

/-! ### Names of indexes -/

/-- The name of an index: the text that is its second argument and called `map`. -/
def Attribute.indexName? (a : Attribute) : Option String :=
  (a.args[1]?.filter (·.isNamed "map")).bind (·.value.string?)

/-- The indexes of a model. -/
def Model.indexes (m : Model) : List Attribute := m.attributes.filter (·.is "index")

/-- An attribute that has the name of an index can get another one. -/
theorem Attribute.indexName?_retextIndex {a : Attribute} (hindex : a.is "index" = true) (text : String)
    (h : (a.retextIndex text).SecondNames) : (a.retextIndex text).indexName? = some text := by
  rw [retextIndex, if_pos hindex] at h ⊢
  obtain ⟨first, second, rest, hargs, hnamed, hstring⟩ := h
  rw [mapArgs_args] at hargs
  rcases hlist : a.args with _ | ⟨first', _ | ⟨second', rest'⟩⟩
  · rw [hlist] at hargs
    cases hargs
  · rw [hlist] at hargs
    cases hargs
  · rw [hlist] at hargs
    have hsecond : (if second'.isNamed "map" then second'.mapValue (.mapString fun _ => text)
        else second') = second := (List.cons.inj (List.cons.inj hargs).2).1
    by_cases hmap : second'.isNamed "map" = true
    · rw [if_pos hmap] at hsecond
      rw [← hsecond, Argument.mapValue_value, Value.string?_mapString] at hstring
      obtain ⟨old, hold⟩ := Option.isSome_iff_exists.mp hstring
      obtain ⟨old', hold', -⟩ := Option.map_eq_some_iff.mp hold
      simp [indexName?, hlist, retextSecond, hmap, Option.filter, Value.string?_mapString, hold']
    · rw [if_neg hmap] at hsecond
      rw [← hsecond] at hnamed
      exact absurd hnamed hmap

namespace ModelMember

/-- The index that a line of a model is. -/
def index? (member : ModelMember) : Option Attribute := member.attribute?.filter (·.is "index")

/-- The indexes on the lines of a model take numbers one after the other. -/
theorem indexes_retext (T : Texts) (model : String) : ∀ (i : Nat) (l : List ModelMember),
    (numberAlong (ModelMember.retext T model) i l).1.filterMap index? =
      (l.filterMap index?).mapIdx fun j a => a.retextIndex (T.index model (i + j))
  | _, [] => rfl
  | i, .field f :: l => indexes_retext T model i l
  | i, .comment c :: l => indexes_retext T model i l
  | i, .blockAttribute a :: l => by
    by_cases ha : a.attr.is "index" = true
    · have ih := indexes_retext T model (i + 1) l
      have hline : (ModelMember.blockAttribute a).index? = some a.attr := by
        simp [index?, ModelMember.attribute?, Option.filter, ha]
      have hretext : ((ModelMember.blockAttribute a).retext T model i).1.index? =
          some (a.attr.retextIndex (T.index model i)) := by
        simp [index?, ModelMember.retext, ModelMember.attribute?, Option.filter, ha]
      have hnext : ((ModelMember.blockAttribute a).retext T model i).2 = i + 1 := if_pos ha
      rw [numberAlong, List.filterMap_cons_some hretext, List.filterMap_cons_some hline,
        List.mapIdx_cons, hnext, ih]
      simp only [Nat.add_zero, Nat.add_assoc, Nat.add_comm 1]
    · have ih := indexes_retext T model i l
      have hline : (ModelMember.blockAttribute a).index? = none := by
        simp [index?, ModelMember.attribute?, Option.filter, ha]
      have hretext : ((ModelMember.blockAttribute a).retext T model i).1.index? = none := by
        simp [index?, ModelMember.retext, ModelMember.attribute?, Option.filter, ha]
      have hnext : ((ModelMember.blockAttribute a).retext T model i).2 = i := if_neg ha
      rw [numberAlong, List.filterMap_cons_none hretext, List.filterMap_cons_none hline, hnext, ih]

end ModelMember

theorem Model.indexes_eq (m : Model) : m.indexes = m.members.filterMap (·.index?) := by
  rw [indexes, attributes, List.filter_filterMap]
  rfl

/-! ### Models -/

/-- The model under its new names, if `e` variables come before it. -/
def Model.renamed (ρ : Renaming) (e : Nat) (m : Model) : Model :=
  Model.rename ρ { m with members := (numberAlong ModelMember.numberEnv e m.members).1 }

/-- Lines that are indexes stay indexes under new names. -/
theorem Model.length_indexes_renamed (ρ : Renaming) (e : Nat) (m : Model) :
    (m.renamed ρ e).indexes.length = m.indexes.length := by
  have hlines : List.Forall₂ (fun _ _ => True) m.indexes (m.renamed ρ e).indexes := by
    rw [indexes_eq, indexes_eq, renamed, Model.rename, List.filterMap_map]
    refine forall₂_filterMap (forall₂_numberAlong e m.members) fun member member' hmember => ?_
    obtain ⟨k, rfl⟩ := hmember
    cases member with
    | field f => exact .inl ⟨rfl, rfl⟩
    | comment c => exact .inl ⟨rfl, rfl⟩
    | blockAttribute a =>
      by_cases ha : a.attr.is "index" = true
      · refine .inr ⟨a.attr, ((a.attr.numberEnv k).1.renameKeys ρ m.name.name).renameLists ρ m.name.name,
          ?_, ?_, trivial⟩
        · simp [ModelMember.index?, ModelMember.attribute?, Option.filter, ha]
        · simp [ModelMember.index?, ModelMember.attribute?, Option.filter, ha, ModelMember.numberEnv,
            BlockAttribute.numberEnv, ModelMember.renameDeclared, ModelMember.renameReferences]
      · refine .inl ⟨?_, ?_⟩
        · simp [ModelMember.index?, ModelMember.attribute?, Option.filter, ha]
        · simp [ModelMember.index?, ModelMember.attribute?, Option.filter, ha, ModelMember.numberEnv,
            BlockAttribute.numberEnv, ModelMember.renameDeclared, ModelMember.renameReferences]
  exact hlines.length_eq.symm

theorem Model.indexes_retext (T : Texts) (m : Model) : (m.retext T).indexes =
    m.indexes.mapIdx fun i a => a.retextIndex (T.index m.name.name i) := by
  rw [indexes_eq, indexes_eq, retext, ModelMember.indexes_retext]
  simp only [Nat.zero_add]

/-- Indexes with a name have the numbers from zero on in their neutral names. -/
theorem Model.indexNames_retext {m : Model}
    (h : ∀ a ∈ (m.retext .neutral).indexes, a.SecondNames) :
    (m.retext .neutral).indexes.map (·.indexName?) = (List.range m.indexes.length).map fun i =>
      some s!"{m.name.name}_index_{i}" := by
  have hlines := m.indexes_retext .neutral
  refine List.ext_getElem (by simp [hlines]) fun i hi _ => ?_
  simp only [hlines, List.length_map, List.length_mapIdx] at hi
  simp only [List.getElem_map, hlines, List.getElem_mapIdx, List.getElem_range]
  have hmem : (m.retext .neutral).indexes[i]? =
      some (m.indexes[i].retextIndex s!"{m.name.name}_index_{i}") := by
    rw [hlines, List.getElem?_mapIdx, List.getElem?_eq_getElem hi]
    rfl
  refine Attribute.indexName?_retextIndex ?_ _ (h _ (List.mem_of_getElem? hmem))
  exact (List.mem_filter.mp (List.getElem_mem hi)).2

theorem Table.names_numbered (stem : Nat → String) (names : List String) :
    (Table.numbered stem names).entries.map (·.1) = names := by
  refine List.ext_getElem (by simp [numbered]) fun i _ _ => ?_
  simp [numbered]

theorem Schema.models_result (n : Numbering) (s : Schema) :
    List.Forall₂ (fun m m' => ∃ e, m' = (m.renamed (s.outline n).newNames e).retext .neutral)
      s.models (s.result n).models := by
  have hdeclarations : (s.result n).models = ((s.numberEnv 0).1.declarations.filterMap fun d =>
      ((d.rename (s.outline n).newNames).retext .neutral).model?) := by
    simp only [result, retext, rename, models, List.map_map, List.filterMap_map, Function.comp_def]
  rw [hdeclarations]
  refine forall₂_filterMap (forall₂_numberAlong 0 s.declarations) fun d d' hd => ?_
  obtain ⟨k, rfl⟩ := hd
  cases d with
  | model m => exact .inr ⟨m, _, rfl, rfl, k, rfl⟩
  | _ => exact .inl ⟨rfl, rfl⟩

/-- The `k`-th model, and what it becomes: every name has the number of its place. -/
structure Model.NumberedAs (k : Nat) (m m' : Model) : Prop where
  name : m'.name.name = modelName k
  fields : m'.fieldNames = m.fieldNames.map fun x => fieldName (m.distinctKeys.idxOf x)
  uniqueKeys : m'.attributes.map (·.keyNames) = m.attributes.map fun a =>
    a.keyNames.map fun x => fieldName (m.distinctKeys.idxOf x)
  relations : m'.relationNames =
    (List.range m.relationNames.length).map (relationName (modelName k))
  indexes : m'.indexes.map (·.indexName?) =
    (List.range m.indexes.length).map fun i => some s!"{modelName k}_index_{i}"

/-- A schema, what it becomes, and the registry: the numbers of all names are those of their
places, and the tables list the names in this order. A model that declares no relation has no
table of relations. -/
structure Schema.NumberedAs (s t : Schema) (r : Registry) : Prop where
  models : t.models.length = s.models.length ∧ ∀ (k : Nat) (m m' : Model),
    s.models[k]? = some m → t.models[k]? = some m' → m.NumberedAs k m'
  enums : t.enums.map (·.name.name) = (List.range s.enums.length).map enumName
  modelTable : r.models.entries = s.models.mapIdx fun k m => (m.name.name, modelName k)
  enumTable : r.enums.entries = s.enums.mapIdx fun k e => (e.name.name, enumName k)
  fieldTables : r.fields.entries = s.models.mapIdx fun k m =>
    (modelName k, ⟨⟨m.distinctKeys.mapIdx fun j x => (x, fieldName j)⟩, m.distinctKeys.length⟩)
  relationTables : r.relations.entries = (s.models.mapIdx fun k m => (modelName k,
    ⟨⟨m.relationNames.mapIdx fun j x => (x, relationName (modelName k) j)⟩,
      m.relationNames.length⟩)).filter (·.2.names.size ≠ 0)
  valueTables : r.values.entries.map (fun p => (p.1, p.2.names.entries.map (·.1))) =
    s.enums.mapIdx fun k e => (enumName k, e.valueNames)
  modelCount : r.models.size = s.models.length
  enumCount : r.enums.size = s.enums.length

namespace Schema

variable {n : Numbering} {s t : Schema} {r : Registry}

theorem idxOf_modelNames (hs : s.Accepted) {k : Nat} {m : Model} (hm : s.models[k]? = some m) :
    (s.outline n).modelNames.idxOf m.name.name = k := by
  have hnodup := hs.types
  rw [s.typeNames_perm.nodup_iff, List.nodup_append] at hnodup
  rw [modelNames_outline]
  exact idxOf_of_getElem? hnodup.1 (by rw [List.getElem?_map, hm]; rfl)

theorem numberedAs_model (h : s.obfuscate n = .ok (t, r)) {k : Nat} {m m' : Model}
    (hm : s.models[k]? = some m) (hm' : t.models[k]? = some m') : m.NumberedAs k m' := by
  obtain ⟨hs, hbound⟩ := (s.meets_obfuscate n).of_ok h
  obtain ⟨rfl, -⟩ := eq_result_of_ok h
  have hk := idxOf_modelNames (n := n) hs hm
  obtain ⟨hmem, hb⟩ := forall₂_getElem? hbound.models hm hm'
  obtain ⟨e, he⟩ := forall₂_getElem? (models_result n s) hm hm'
  have hname : m'.name.name = modelName k := by rw [hb.name, hk]
  have hnewKey : m.outline.newKey = fun x => fieldName (m.distinctKeys.idxOf x) := by
    funext x
    rw [ModelOutline.newKey, m.keys_outline]
  have hnewRelation : m.outline.newRelation ((s.outline n).modelNames.idxOf m.name.name) =
      fun x => relationName (modelName k) (m.relationNames.idxOf x) := by
    funext x
    rw [ModelOutline.newRelation, hk, m.relations_outline]
  refine ⟨hname, ?_, ?_, ?_, ?_⟩
  · rw [hb.fieldNames, hnewKey]
  · rw [← hnewKey]
    exact map_eq_of_forall₂ hb.attributes
  · rw [hb.relationNames, hnewRelation, map_idxOf (hs.relations m hmem)]
  · have hnew : (s.outline n).newNames.type m.name.name = modelName k := by
      rw [newNames_type_model hmem, hk]
    have hsecond : ∀ a ∈ m'.indexes, a.SecondNames := by
      intro a ha
      obtain ⟨ha, hindex⟩ := List.mem_filter.mp ha
      exact ((accepted_result hs).indexes m' (List.mem_of_getElem? hm') a ha hindex).2
    subst he
    rw [Model.indexNames_retext hsecond, Model.length_indexes_renamed]
    show List.map (fun i => some s!"{(s.outline n).newNames.type m.name.name}_index_{i}") _ = _
    rw [hnew]

/-- A model whose unique keys have names before, after and between its fields, one of them that of
a field and one that comes twice. -/
def keyed : Schema :=
  let here : Span := ⟨0, 0, 1⟩
  let only (name : String) : Argument := ⟨none, .array [.path [name]], here⟩
  let named (name : String) (value : Value) : Argument := ⟨some ⟨name, here⟩, value, here⟩
  let field (name : String) (type : FieldType) (attributes : List Attribute) : ModelMember :=
    .field ⟨⟨name, here⟩, type, .required, attributes, none, here⟩
  let line (name : String) (args : List Argument) : ModelMember :=
    .blockAttribute ⟨⟨⟨name, here⟩, args, here⟩, none⟩
  let relation (name list : String) : Attribute := ⟨⟨"relation", here⟩,
    [⟨none, .string name, here⟩, named "fields" (.array [.path [list]]),
      named "references" (.array [.path ["id"]])], here⟩
  ⟨[.enum ⟨⟨"Level", here⟩, [.value ⟨⟨"LOW", here⟩, [], none, here⟩,
      .value ⟨⟨"HIGH", here⟩, [], none, here⟩], here⟩,
    .model ⟨⟨"Order", here⟩, [
      line "unique" [only "amount", named "name" (.string "code")],
      field "id" (.scalar .int) [],
      line "unique" [only "id", named "map" (.string "code"), named "name" (.string "id")],
      line "index" [only "id", named "map" (.string "by_id")],
      field "amount" (.scalar .int) [],
      line "unique" [only "id", named "map" (.string "sum")],
      field "first" (.named ⟨"Order", here⟩) [relation "Opening" "id"],
      field "last" (.named ⟨"Order", here⟩) [relation "Closing" "amount"],
      line "index" [only "amount", named "map" (.string "by_amount")]], here⟩]⟩

end Schema

end Pseudonym

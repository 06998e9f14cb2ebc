/-
# Names in the database

Relations, indexes and unique keys have names in the database, where all of
them share one space. An obfuscation builds each out of the new name of a
model, a fixed word and a number: `model_name_1_relation_12`,
`model_name_11_index_2`, `model_name_1_field_12_unique`, or the last one with a
point in it. The numbers are counted by different steps and in different
scopes, so two names may have the same numbers. They are different names all
the same, since model, word and number can be read off a name.

A schema has these names in groups: one for each relation that is declared, one
for each index, and one for all unique keys of a field, which have the same
name. The groups of a result are disjoint, over all models.

Key definitions: `DatabaseName`, `Model.databaseNames`, `Schema.databaseNames`.
-/
import Pseudonym.Proofs.Names.Digits
import Pseudonym.Proofs.Obfuscate.Parts

namespace Pseudonym

/-! ### Reading names -/

/-- A name that an obfuscation gives, by the numbers in it. -/
inductive DatabaseName where
  | relation (model number : Nat)
  | index (model number : Nat)
  | unique (model field : Nat) (pointed : Bool)
  deriving DecidableEq, Repr

namespace DatabaseName

/-- The model that a name belongs to. -/
def model : DatabaseName → Nat
  | .relation i _ => i
  | .index i _ => i
  | .unique i _ _ => i

/-- What follows the name of the model. -/
def tail : DatabaseName → String
  | .relation _ k => "_relation_" ++ toString k
  | .index _ k => "_index_" ++ toString k
  | .unique _ k pointed => (if pointed then "." else "_") ++ ("field_" ++ toString k ++ "_unique")

/-- How a name is written. -/
def spelled (d : DatabaseName) : String := modelName d.model ++ d.tail

theorem endsNumber_tail (d : DatabaseName) : EndsNumber d.tail.toList := by
  cases d with
  | relation i k => exact endsNumber_relation k
  | index i k =>
    rw [tail, String.toList_append]
    exact endsNumber_cons (by decide) _
  | unique i k pointed =>
    rw [tail, String.toList_append]
    cases pointed
    · exact endsNumber_cons (by decide) _
    · exact endsNumber_cons (by decide) _

/-- The first two characters behind the name of the model tell the kinds of names apart. -/
def mark : DatabaseName → List Char
  | .relation _ _ => ['_', 'r']
  | .index _ _ => ['_', 'i']
  | .unique _ _ pointed => [if pointed then '.' else '_', 'f']

theorem take_tail (d : DatabaseName) : d.tail.toList.take 2 = d.mark := by
  cases d with
  | relation i k => simp [tail, mark]
  | index i k => simp [tail, mark]
  | unique i k pointed => cases pointed <;> simp [tail, mark]

theorem tail_unique_inj {i j k l : Nat} {p q : Bool} (hmark : (unique i k p).mark = (unique j l q).mark)
    (h : (unique i k p).tail = (unique j l q).tail) : k = l ∧ p = q := by
  have hpointed : p = q := by
    cases p <;> cases q <;> simp [mark] at hmark ⊢
  subst hpointed
  have hfield : "field_" ++ toString k ++ "_unique" = "field_" ++ toString l ++ "_unique" :=
    (String.append_right_inj _).mp h
  have hends : EndsNumber "_unique".toList := endsNumber_cons (by decide) _
  exact ⟨(numbered_append_inj "field_" hends hends hfield).1, rfl⟩

/-- **Names can be read.** The kind of a name and all of its numbers are determined by how it is
written. -/
theorem spelled_injective : Function.Injective spelled := by
  intro d d' h
  obtain ⟨hmodel, htail⟩ := numbered_append_inj "model_name_" d.endsNumber_tail d'.endsNumber_tail h
  have hmark : d.mark = d'.mark := by
    rw [← take_tail, ← take_tail, htail]
  cases d with
  | relation i k =>
    cases d' with
    | relation j l =>
      obtain rfl : i = j := hmodel
      obtain rfl : k = l := stem_inj "_relation_" htail
      rfl
    | index j l => exact absurd hmark (by simp [mark])
    | unique j l q => exact absurd hmark (by simp [mark])
  | index i k =>
    cases d' with
    | relation j l => exact absurd hmark (by simp [mark])
    | index j l =>
      obtain rfl : i = j := hmodel
      obtain rfl : k = l := stem_inj "_index_" htail
      rfl
    | unique j l q => exact absurd hmark (by simp [mark])
  | unique i k p =>
    cases d' with
    | relation j l => exact absurd hmark (by simp [mark])
    | index j l => exact absurd hmark (by simp [mark])
    | unique j l q =>
      obtain rfl : i = j := hmodel
      obtain ⟨rfl, rfl⟩ := tail_unique_inj hmark htail
      rfl

theorem spelled_relation (i k : Nat) : (relation i k).spelled = relationName (modelName i) k :=
  (relationName_eq_append (modelName i) k).symm

theorem spelled_index (i k : Nat) : (index i k).spelled = Texts.neutral.index (modelName i) k := by
  simp [spelled, model, tail, Texts.neutral, String.append_assoc, toString]

theorem spelled_unique (i k : Nat) (old : String) :
    (unique i k (old.toList.contains '.')).spelled =
      Attribute.uniqueKeyName (modelName i) (fieldName k) old := by
  unfold Attribute.uniqueKeyName
  split
  · rename_i hpoint
    rw [hpoint]
    simp [spelled, model, tail, fieldName, String.append_assoc, toString]
  · rename_i hpoint
    rw [Bool.not_eq_true] at hpoint
    rw [hpoint]
    simp [spelled, model, tail, fieldName, String.append_assoc, toString]

end DatabaseName

/-! ### The names of a schema -/

/-- The name that an argument called `map` gives. -/
def Argument.mapName? (arg : Argument) : Option String :=
  if arg.isNamed "map" then arg.value.string? else none

namespace Attribute

/-- The names that the arguments of an attribute give. -/
def mapNames (a : Attribute) : List String := a.args.filterMap (·.mapName?)

/-- The names of the unique keys that an attribute of a field declares. -/
def uniqueNames (a : Attribute) : List String := if a.is "unique" then a.mapNames else []

end Attribute

/-- The names of the unique keys of a field. -/
def Field.uniqueNames (f : Field) : List String := f.attributes.flatMap (·.uniqueNames)

namespace Model

/-- The names of the indexes of a model. -/
def indexNames (m : Model) : List String := m.indexes.filterMap (·.indexName?)

/-- The names that a model has in the database, grouped by what they name: the relations that it
declares, its indexes, and the unique keys of each field. -/
def databaseNames (m : Model) : List (List String) :=
  m.relationNames.map ([·]) ++ m.indexNames.map ([·]) ++ m.fields.map (·.uniqueNames)

end Model

/-- The names that a schema has in the database, in groups. -/
def Schema.databaseNames (s : Schema) : List (List String) := s.models.flatMap (·.databaseNames)

/-! ### Unique keys -/

@[simp] theorem Argument.mapName?_mapValue {f : Value → Value} (hf : ∀ v, (f v).string? = v.string?)
    (arg : Argument) : (arg.mapValue f).mapName? = arg.mapName? := by
  simp only [mapName?, mapValue_isNamed, mapValue_value, hf]

theorem Argument.mapNames_numberEnvEach : ∀ (e : Nat) (args : List Argument),
    (numberEnvEach e args).1.filterMap (·.mapName?) = args.filterMap (·.mapName?)
  | _, [] => rfl
  | e, arg :: args => by
    have harg : (arg.mapValue fun v => (v.numberEnv e).1).mapName? = arg.mapName? :=
      mapName?_mapValue (fun v => Value.string?_numberEnv e v) arg
    rw [numberEnvEach_cons, List.filterMap_cons, List.filterMap_cons,
      mapNames_numberEnvEach (arg.value.numberEnv e).2 args, ← harg]

namespace Attribute

variable {ρ : Renaming} {model : String} {e : Nat} {type : FieldType} {w : FieldTexts} {a : Attribute}

theorem uniqueNames_result :
    (a.result ρ model e type w).uniqueNames = a.uniqueNames.map w.uniqueKey := by
  have his : (a.result ρ model e type w).is "unique" = a.is "unique" := by
    rw [is, is, name_result]
  rw [uniqueNames, uniqueNames, his]
  by_cases hu : a.is "unique" = true
  · have hkey : ∀ arg : Argument,
        (if arg.isNamed "map" then arg.mapValue (.mapString w.uniqueKey) else arg).mapName? =
          arg.mapName?.map w.uniqueKey := by
      intro arg
      by_cases hmap : arg.isNamed "map" = true
      · simp only [Argument.mapName?, hmap, ↓reduceIte, Argument.mapValue_isNamed,
          Argument.mapValue_value, Value.string?_mapString]
      · simp only [Argument.mapName?, hmap, Bool.false_eq_true, ↓reduceIte, Option.map_none]
    have hnumbered : a.mapNames = (Argument.numberEnvEach e a.args).1.filterMap (·.mapName?) :=
      (Argument.mapNames_numberEnvEach e a.args).symm
    rw [if_pos hu, if_pos hu, hnumbered, mapNames, args_result_unique hu, List.filterMap_map,
      List.map_filterMap]
    exact List.filterMap_congr fun arg _ => hkey arg
  · rw [if_neg hu, if_neg hu]
    rfl

end Attribute

theorem Field.uniqueNames_result (ρ : Renaming) (model : String) (e : Nat) (f : Field) :
    (f.result ρ model e).uniqueNames =
      f.uniqueNames.map (Attribute.uniqueKeyName (ρ.type model) (ρ.field model f.name.name)) := by
  rw [uniqueNames, uniqueNames, List.map_flatMap]
  refine flatMap_eq_of_forall₂ ((f.forall₂_attributes_result ρ model e).imp ?_)
  rintro a _ ⟨k, rfl⟩
  exact Attribute.uniqueNames_result

/-! ### All names -/

namespace Model

/-- The names that an obfuscation gives the `k`-th model, in the groups of `databaseNames`. -/
def newDatabaseNames (k : Nat) (m : Model) : List (List DatabaseName) :=
  (List.range m.relationNames.length).map (fun j => [.relation k j]) ++
    (List.range m.indexes.length).map (fun j => [.index k j]) ++
      m.fields.map fun f => f.uniqueNames.map fun old =>
        .unique k (m.distinctKeys.idxOf f.name.name) (old.toList.contains '.')

theorem model_of_mem_newDatabaseNames {k : Nat} {m : Model} {group : List DatabaseName}
    (hgroup : group ∈ m.newDatabaseNames k) {d : DatabaseName} (hd : d ∈ group) : d.model = k := by
  simp only [newDatabaseNames, List.mem_append, List.mem_map] at hgroup
  obtain (⟨j, -, rfl⟩ | ⟨j, -, rfl⟩) | ⟨f, -, rfl⟩ := hgroup
  · rw [List.mem_singleton.mp hd]
    rfl
  · rw [List.mem_singleton.mp hd]
    rfl
  · obtain ⟨old, -, rfl⟩ := List.mem_map.mp hd
    rfl

/-- What is numbered from zero on is kept apart by its numbers. -/
theorem pairwise_range_map {d : Nat → DatabaseName} (hd : Function.Injective d) (count : Nat) :
    ((List.range count).map fun j => [d j]).Pairwise List.Disjoint := by
  rw [List.pairwise_map]
  refine List.nodup_range.imp fun {i j} hne => ?_
  rw [List.singleton_disjoint, List.mem_singleton]
  exact fun h => hne (hd h)

/-- The counters of a model keep its names apart. -/
theorem pairwise_newDatabaseNames (k : Nat) {m : Model} (hfields : m.fieldNames.Nodup) :
    (m.newDatabaseNames k).Pairwise List.Disjoint := by
  have hrelations := pairwise_range_map (d := .relation k)
    (fun _ _ h => (DatabaseName.relation.inj h).2) m.relationNames.length
  have hindexes := pairwise_range_map (d := .index k)
    (fun _ _ h => (DatabaseName.index.inj h).2) m.indexes.length
  have huniques : (m.fields.map fun f => f.uniqueNames.map fun old =>
      DatabaseName.unique k (m.distinctKeys.idxOf f.name.name)
        (old.toList.contains '.')).Pairwise List.Disjoint := by
    rw [List.pairwise_map]
    refine (List.pairwise_map.mp hfields).imp_of_mem fun {f g} hf _ hne d hd hd' => ?_
    obtain ⟨old, -, rfl⟩ := List.mem_map.mp hd
    obtain ⟨old', -, heq⟩ := List.mem_map.mp hd'
    have hkey : f.name.name ∈ m.distinctKeys := by
      rw [← keys_outline, mem_keys_outline]
      exact List.mem_append_left _ (List.mem_map_of_mem hf)
    exact hne ((List.idxOf_inj hkey).mp (DatabaseName.unique.inj heq).2.1.symm)
  rw [newDatabaseNames, List.pairwise_append, List.pairwise_append]
  refine ⟨⟨hrelations, hindexes, ?_⟩, huniques, ?_⟩
  · intro group hgroup group' hgroup' d hd hd'
    obtain ⟨i, -, rfl⟩ := List.mem_map.mp hgroup
    obtain ⟨j, -, rfl⟩ := List.mem_map.mp hgroup'
    rw [List.mem_singleton] at hd hd'
    cases hd.symm.trans hd'
  · intro group hgroup group' hgroup' d hd hd'
    obtain ⟨f, -, rfl⟩ := List.mem_map.mp hgroup'
    obtain ⟨old, -, rfl⟩ := List.mem_map.mp hd'
    rcases List.mem_append.mp hgroup with hgroup | hgroup
    · obtain ⟨i, -, rfl⟩ := List.mem_map.mp hgroup
      cases List.mem_singleton.mp hd
    · obtain ⟨i, -, rfl⟩ := List.mem_map.mp hgroup
      cases List.mem_singleton.mp hd

end Model

namespace Schema

variable {n : Numbering} {s t : Schema} {r : Registry}

/-- The names that an obfuscation gives, in the groups of `databaseNames`. -/
def newDatabaseNames (s : Schema) : List (List DatabaseName) :=
  (s.models.mapIdx fun k m => m.newDatabaseNames k).flatten

theorem pairwise_newDatabaseNames (hs : s.Accepted) :
    s.newDatabaseNames.Pairwise List.Disjoint := by
  rw [newDatabaseNames, List.pairwise_flatten]
  constructor
  · intro groups hgroups
    obtain ⟨k, hk, rfl⟩ := List.mem_mapIdx.mp hgroups
    exact Model.pairwise_newDatabaseNames k (hs.fields _ (List.getElem_mem hk)).nodup
  · rw [List.pairwise_iff_getElem]
    intro k l hk hl hlt group hgroup group' hgroup' d hd hd'
    rw [List.getElem_mapIdx] at hgroup hgroup'
    have hmodel := Model.model_of_mem_newDatabaseNames hgroup hd
    have hmodel' := Model.model_of_mem_newDatabaseNames hgroup' hd'
    omega

/-- The names of a model of the result are those that its counters give. -/
theorem databaseNames_model (hs : s.Accepted) {k : Nat} {m m' : Model} (hm : m ∈ s.models)
    (hnumbered : m.NumberedAs k m') (hfields : List.Forall₂
      (fun f g => ∃ e, g = Field.result (s.outline n).newNames m.name.name e f) m.fields m'.fields)
    (hk : (s.outline n).modelNames.idxOf m.name.name = k) :
    m'.databaseNames = (m.newDatabaseNames k).map (List.map DatabaseName.spelled) := by
  have hrelations : m'.relationNames.map ([·]) = (List.range m.relationNames.length).map fun j =>
      [(DatabaseName.relation k j).spelled] := by
    rw [hnumbered.relations, List.map_map]
    refine List.map_congr_left fun j _ => ?_
    rw [DatabaseName.spelled_relation]
    rfl
  have hindexes : m'.indexNames.map ([·]) = (List.range m.indexes.length).map fun j =>
      [(DatabaseName.index k j).spelled] := by
    have hnames : m'.indexNames = (m'.indexes.map (·.indexName?)).filterMap id := by
      rw [List.filterMap_map]
      rfl
    rw [hnames, hnumbered.indexes, List.filterMap_map, List.map_filterMap, ← List.filterMap_eq_map]
    refine List.filterMap_congr fun j _ => ?_
    rw [Function.comp_apply, Function.comp_apply, DatabaseName.spelled_index]
    rfl
  have huniques : m'.fields.map (·.uniqueNames) = m.fields.map fun f => f.uniqueNames.map fun old =>
      (DatabaseName.unique k (m.distinctKeys.idxOf f.name.name) (old.toList.contains '.')).spelled := by
    refine map_eq_of_forall₂ ((forall₂_mem hfields).imp ?_)
    rintro f _ ⟨hf, e, rfl⟩
    have hkey : f.name.name ∈ m.keyNames := List.mem_append_left _ (List.mem_map_of_mem hf)
    rw [Field.uniqueNames_result, newNames_type_model hm, hk, newNames_field hs.types hm hkey,
      ModelOutline.newKey, m.keys_outline]
    refine List.map_congr_left fun old _ => ?_
    rw [DatabaseName.spelled_unique]
  rw [Model.databaseNames, hrelations, hindexes, huniques, Model.newDatabaseNames]
  simp only [List.map_append, List.map_map, Function.comp_def, List.map_cons, List.map_nil]

/-- All names of the result are those that the counters give. -/
theorem databaseNames_of_ok (h : s.obfuscate n = .ok (t, r)) :
    t.databaseNames = s.newDatabaseNames.map (List.map DatabaseName.spelled) := by
  obtain ⟨haccepted, -, hmodels⟩ := parts_of_ok h
  have hlists : t.models.map (·.databaseNames) = (s.models.mapIdx fun k m =>
      m.newDatabaseNames k).map (List.map (List.map DatabaseName.spelled)) := by
    refine List.ext_getElem (by simp [hmodels.length_eq]) fun k hk hk' => ?_
    rw [List.length_map] at hk
    rw [List.length_map, List.length_mapIdx] at hk'
    have hm := List.getElem?_eq_getElem hk'
    have hm' := List.getElem?_eq_getElem hk
    obtain ⟨hmem, -, hfields⟩ := forall₂_getElem? hmodels hm hm'
    simp only [List.getElem_map, List.getElem_mapIdx]
    exact databaseNames_model haccepted hmem (numberedAs_model h hm hm') hfields
      (idxOf_modelNames haccepted hm)
  rw [databaseNames, List.flatMap_def, hlists, newDatabaseNames, List.map_flatten]

/-- Every index of an accepted schema has a name. -/
theorem length_indexNames (hs : s.Accepted) {m : Model} (hm : m ∈ s.models) :
    m.indexNames.length = m.indexes.length := by
  rw [Model.indexNames, List.length_filterMap_eq_countP, List.countP_eq_length]
  intro a ha
  obtain ⟨hattribute, hindex⟩ := List.mem_filter.mp ha
  obtain ⟨first, second, rest, hargs, hnamed, hstring⟩ := (hs.indexes m hm a hattribute hindex).2
  simpa [Attribute.indexName?, hargs, Option.filter, hnamed] using hstring

/-- As many names are given as there were before. -/
theorem length_newDatabaseNames (hs : s.Accepted) :
    s.newDatabaseNames.map List.length = s.databaseNames.map List.length := by
  have hmodel : ∀ k, ∀ m ∈ s.models,
      (m.newDatabaseNames k).map List.length = m.databaseNames.map List.length := by
    intro k m hm
    simp [Model.newDatabaseNames, Model.databaseNames, Function.comp_def, List.map_const',
      length_indexNames hs hm]
  have hlists : (s.models.mapIdx fun k m => m.newDatabaseNames k).map (List.map List.length) =
      (s.models.map (·.databaseNames)).map (List.map List.length) := by
    refine List.ext_getElem (by simp) fun k hk _ => ?_
    rw [List.length_map, List.length_mapIdx] at hk
    simp only [List.getElem_map, List.getElem_mapIdx]
    exact hmodel k _ (List.getElem_mem hk)
  rw [newDatabaseNames, databaseNames, List.map_flatten, hlists, List.flatMap_def, List.map_flatten]

/-- **Names in the database never collide.** In the result of an obfuscation, whatever its models
and however its values are numbered, no name is given to two relations, to two indexes, to unique
keys of two fields, or to two of these kinds. There are as many names as before, each for the same
relation, index or field. -/
theorem databaseNames_obfuscate (h : s.obfuscate n = .ok (t, r)) :
    t.databaseNames.Pairwise List.Disjoint ∧
      t.databaseNames.map List.length = s.databaseNames.map List.length := by
  obtain ⟨haccepted, -⟩ := (s.meets_obfuscate n).of_ok h
  have hnames := databaseNames_of_ok h
  rw [hnames]
  constructor
  · rw [List.pairwise_map]
    exact (pairwise_newDatabaseNames haccepted).imp fun hdisjoint =>
      List.disjoint_map DatabaseName.spelled_injective hdisjoint
  · rw [List.map_map, ← length_newDatabaseNames haccepted]
    exact List.map_congr_left fun group _ => List.length_map _

/-- Two models that declare a relation to each other and have indexes and unique keys, some of them
with a point in the name. One field has two keys. -/
def catalogued : Schema :=
  let here : Span := ⟨0, 0, 1⟩
  let named (name : String) (value : Value) : Argument := ⟨some ⟨name, here⟩, value, here⟩
  let only (name : String) : Value := .array [.path [name]]
  let key (name : String) : Attribute := ⟨⟨"unique", here⟩, [named "map" (.string name)], here⟩
  let field (name : String) (type : FieldType) (attributes : List Attribute) : ModelMember :=
    .field ⟨⟨name, here⟩, type, .required, attributes, none, here⟩
  let link (name : String) : Attribute := ⟨⟨"relation", here⟩,
    [⟨none, .string name, here⟩, named "fields" (only "id"), named "references" (only "id")], here⟩
  let index (name : String) : ModelMember := .blockAttribute ⟨⟨⟨"index", here⟩,
    [⟨none, only "id", here⟩, named "map" (.string name)], here⟩, none⟩
  ⟨[.model ⟨⟨"User", here⟩, [
      index "by_id", field "id" (.scalar .int) [key "user.id", key "user_id"],
      field "code" (.scalar .string) [key "user_code"],
      field "post" (.named ⟨"Post", here⟩) [link "author"], index "by_id_again"], here⟩,
    .model ⟨⟨"Post", here⟩, [
      field "id" (.scalar .int) [key "post_id"],
      field "user" (.named ⟨"User", here⟩) [link "author"], index "by_id"], here⟩]⟩

theorem databaseNames_obfuscate_catalogued : ∃ t r, catalogued.obfuscate .perEnum = .ok (t, r) ∧
    t.databaseNames.Pairwise List.Disjoint ∧
      t.databaseNames.map List.length = [1, 1, 1, 2, 1, 0, 1, 1, 1, 0] := by
  have hok : (catalogued.obfuscate .perEnum).toBool = true := by decide +kernel
  cases h : catalogued.obfuscate .perEnum with
  | error e =>
    rw [h] at hok
    cases hok
  | ok p =>
    obtain ⟨hdisjoint, hlengths⟩ := databaseNames_obfuscate h
    exact ⟨p.1, p.2, rfl, hdisjoint, hlengths.trans (by decide +kernel)⟩

end Schema

end Pseudonym

/-
# Names of foreign keys

A relation can name its foreign key in the database. An obfuscation calls the
key of every relation after the field that it stands on, `field_3_mapped`,
without the model. So the names are distinct within a model, as the fields are,
and two models have a name in common exactly if the fields have the same
number: names that were distinct all over a schema need not stay so.

Only the first `map` of an attribute is replaced, and a field with two relations
gives both of them one name; here every field has at most one of each.

Key definitions: `Field.SingleForeignKey`, `Schema.foreignKeys`, `Schema.keyedFields`.
-/
import Pseudonym.Proofs.Obfuscate.DatabaseNames

namespace Pseudonym

/-- The names of foreign keys in an attribute of a field. -/
def Attribute.foreignKeys (a : Attribute) : List String :=
  if a.is "relation" then a.mapNames else []

/-- The names of the foreign keys of a field. -/
def Field.foreignKeys (f : Field) : List String := f.attributes.flatMap (·.foreignKeys)

/-- The names of the foreign keys of a model. -/
def Model.foreignKeys (m : Model) : List String := m.fields.flatMap (·.foreignKeys)

/-- The names of all foreign keys. -/
def Schema.foreignKeys (s : Schema) : List String := s.models.flatMap (·.foreignKeys)

/-- The fields of a model that have a foreign key. -/
def Model.keyedFields (m : Model) : List Field := m.fields.filter (!·.foreignKeys.isEmpty)

/-- All fields that have a foreign key. -/
def Schema.keyedFields (s : Schema) : List Field := s.models.flatMap (·.keyedFields)

/-- The field has one relation at most, and this has one `map` at most. -/
def Field.SingleForeignKey (f : Field) : Prop :=
  f.attributes.countP (·.is "relation") ≤ 1 ∧
    ∀ a ∈ f.attributes, a.is "relation" = true → a.args.countP (·.isNamed "map") ≤ 1

instance (f : Field) : Decidable f.SingleForeignKey := inferInstanceAs (Decidable (_ ∧ _))

/-- Every field has one relation and one `map` at most. -/
def Schema.SingleForeignKeys (s : Schema) : Prop :=
  ∀ m ∈ s.models, ∀ f ∈ m.fields, f.SingleForeignKey

instance (s : Schema) : Decidable s.SingleForeignKeys :=
  inferInstanceAs (Decidable (∀ m ∈ s.models, ∀ f ∈ m.fields, f.SingleForeignKey))

/-! ### Arguments -/

namespace Argument

/-- Changes to other arguments leave the names. -/
theorem mapNames_mapFirst {p : Argument → Bool} {f : Value → Value}
    (hp : Excludes p (·.isNamed "map") f) : ∀ args : List Argument,
    (mapFirst p f args).filterMap (·.mapName?) = args.filterMap (·.mapName?)
  | [] => rfl
  | arg :: rest => by
    by_cases h : p arg = true
    · obtain ⟨hold, hnew⟩ := hp arg h
      have harg : arg.mapName? = none := by simp [mapName?, hold]
      have harg' : (arg.mapValue f).mapName? = none := by simp [mapName?, hnew]
      rw [mapFirst, if_pos h, List.filterMap_cons_none harg, List.filterMap_cons_none harg']
    · rw [mapFirst, if_neg h, List.filterMap_cons, List.filterMap_cons, mapNames_mapFirst hp rest]

theorem countP_isNamed_mapFirst (p : Argument → Bool) (f : Value → Value) (x : String) :
    ∀ args : List Argument,
      (mapFirst p f args).countP (·.isNamed x) = args.countP (·.isNamed x)
  | [] => rfl
  | arg :: rest => by
    by_cases h : p arg = true
    · rw [mapFirst, if_pos h, List.countP_cons, List.countP_cons, mapValue_isNamed]
    · rw [mapFirst, if_neg h, List.countP_cons, List.countP_cons, countP_isNamed_mapFirst p f x rest]

theorem countP_isNamed_numberEnvEach (x : String) : ∀ (e : Nat) (args : List Argument),
    (numberEnvEach e args).1.countP (·.isNamed x) = args.countP (·.isNamed x)
  | _, [] => rfl
  | e, arg :: args => by
    rw [numberEnvEach_cons, List.countP_cons, List.countP_cons,
      countP_isNamed_numberEnvEach x (arg.value.numberEnv e).2 args]
    rfl

theorem mapNames_of_countP_eq_zero {args : List Argument} (h : args.countP (·.isNamed "map") = 0) :
    args.filterMap (·.mapName?) = [] := by
  rw [List.countP_eq_zero] at h
  rw [List.filterMap_eq_nil_iff]
  intro arg harg
  rw [mapName?, if_neg (h arg harg)]

/-- If only one argument can give a name, changing the first one changes all names. -/
theorem mapNames_mapFirst_isNamed (text : String) : ∀ args : List Argument,
    args.countP (·.isNamed "map") ≤ 1 →
      (mapFirst (·.isNamed "map") (.mapString fun _ => text) args).filterMap (·.mapName?) =
        (args.filterMap (·.mapName?)).map fun _ => text
  | [], _ => rfl
  | arg :: rest, h => by
    by_cases hmap : arg.isNamed "map" = true
    · rw [List.countP_cons, if_pos hmap] at h
      have hzero : rest.countP (·.isNamed "map") = 0 := by omega
      have hrest := mapNames_of_countP_eq_zero hzero
      have hold : arg.mapName? = arg.value.string? := by rw [mapName?, if_pos hmap]
      have hnew : (arg.mapValue (.mapString fun _ => text)).mapName? =
          arg.value.string?.map fun _ => text := by
        rw [mapName?, mapValue_isNamed, if_pos hmap, mapValue_value, Value.string?_mapString]
      rw [mapFirst, if_pos hmap, List.filterMap_cons, List.filterMap_cons, hrest, hold, hnew]
      cases arg.value.string? <;> rfl
    · rw [List.countP_cons, if_neg hmap] at h
      have harg : arg.mapName? = none := by rw [mapName?, if_neg hmap]
      rw [mapFirst, if_neg hmap, List.filterMap_cons_none harg, List.filterMap_cons_none harg,
        mapNames_mapFirst_isNamed text rest h]

/-- Renaming what a relation refers to is a change to other arguments. -/
theorem mapNames_renameRelationArgs (ρ : Renaming) (model : String) (type : FieldType)
    (declares : Bool) (args : List Argument) :
    (Attribute.renameRelationArgs ρ model type declares args).filterMap (·.mapName?) =
        args.filterMap (·.mapName?) ∧
      (Attribute.renameRelationArgs ρ model type declares args).countP (·.isNamed "map") =
        args.countP (·.isNamed "map") := by
  cases declares with
  | true =>
    constructor
    · exact (mapNames_mapFirst (isNamed_excludes (by decide) _) _).trans
        (mapNames_mapFirst (isNamed_excludes (by decide) _) _)
    · exact (countP_isNamed_mapFirst _ _ _ _).trans (countP_isNamed_mapFirst _ _ _ _)
  | false =>
    exact ⟨mapNames_mapFirst (namesRelation_excludes (by decide) _) _,
      countP_isNamed_mapFirst _ _ _ _⟩

end Argument

/-! ### Fields -/

theorem Attribute.foreignKeys_result {ρ : Renaming} {model : String} {e : Nat} {type : FieldType}
    {w : FieldTexts} {a : Attribute}
    (h : a.is "relation" = true → a.args.countP (·.isNamed "map") ≤ 1) :
    (a.result ρ model e type w).foreignKeys = a.foreignKeys.map fun _ => w.foreignKey := by
  have his : (a.result ρ model e type w).is "relation" = a.is "relation" := by
    rw [is, is, name_result]
  rw [foreignKeys, foreignKeys, his]
  by_cases hr : a.is "relation" = true
  · obtain ⟨declares, hargs⟩ := args_result_relation ρ model e type w hr
    rw [if_pos hr, if_pos hr, mapNames, mapNames, hargs]
    generalize hnumbered : (Argument.numberEnvEach e a.args).1 = numbered
    have hnames : numbered.filterMap (·.mapName?) = a.args.filterMap (·.mapName?) := by
      rw [← hnumbered, Argument.mapNames_numberEnvEach]
    have hcount : numbered.countP (·.isNamed "map") ≤ 1 := by
      rw [← hnumbered, Argument.countP_isNamed_numberEnvEach]
      exact h hr
    -- a name that the relation declares is in another argument too
    generalize hdeclared : (if declares then Argument.mapFirst namesRelation
      (.mapString (ρ.relation model)) numbered else numbered) = declared
    have hdeclaredNames : declared.filterMap (·.mapName?) = numbered.filterMap (·.mapName?) ∧
        declared.countP (·.isNamed "map") = numbered.countP (·.isNamed "map") := by
      rw [← hdeclared]
      split
      · exact ⟨Argument.mapNames_mapFirst (Argument.namesRelation_excludes (by decide) _) _,
          Argument.countP_isNamed_mapFirst _ _ _ _⟩
      · exact ⟨rfl, rfl⟩
    obtain ⟨hrenamed, hrenamedCount⟩ :=
      Argument.mapNames_renameRelationArgs ρ model type declares declared
    rw [Argument.mapNames_mapFirst_isNamed _ _ (by omega), hrenamed, hdeclaredNames.1, hnames]
  · rw [if_neg hr, if_neg hr]
    rfl

namespace Field

theorem foreignKeys_result (ρ : Renaming) (model : String) (e : Nat) {f : Field}
    (h : f.SingleForeignKey) : (f.result ρ model e).foreignKeys =
      f.foreignKeys.map fun _ => Texts.neutral.foreignKey (ρ.field model f.name.name) := by
  rw [foreignKeys, foreignKeys, List.map_flatMap]
  refine flatMap_eq_of_forall₂ ((forall₂_mem (f.forall₂_attributes_result ρ model e)).imp ?_)
  rintro a _ ⟨ha, k, rfl⟩
  exact Attribute.foreignKeys_result (h.2 a ha)

/-- A field has one foreign key at most. -/
theorem length_foreignKeys {f : Field} (h : f.SingleForeignKey) : f.foreignKeys.length ≤ 1 := by
  have hmap : ∀ arg : Argument,
      arg.mapName?.toList.length ≤ if arg.isNamed "map" then 1 else 0 := by
    intro arg
    unfold Argument.mapName?
    split
    · cases arg.value.string? <;> simp
    · simp
  have hattribute : ∀ a ∈ f.attributes,
      a.foreignKeys.length ≤ if a.is "relation" then 1 else 0 := by
    intro a ha
    unfold Attribute.foreignKeys
    split
    · rename_i hr
      have hcount := length_flatMap_le_countP (l := a.args) fun arg _ => hmap arg
      rw [← List.filterMap_eq_flatMap_toList] at hcount
      exact Nat.le_trans hcount (h.2 a ha hr)
    · exact Nat.le_refl 0
  exact Nat.le_trans (length_flatMap_le_countP hattribute) h.1

/-- The foreign key of a field, if it has one, is called after the new name of the field. -/
theorem foreignKeys_result_eq (ρ : Renaming) (model : String) (e : Nat) {f : Field}
    (h : f.SingleForeignKey) : (f.result ρ model e).foreignKeys =
      if (f.result ρ model e).foreignKeys.isEmpty then []
      else [(f.result ρ model e).name.name ++ "_mapped"] := by
  have hlength := f.length_foreignKeys h
  rw [foreignKeys_result ρ model e h, name_result]
  rcases hkeys : f.foreignKeys with _ | ⟨key, _ | ⟨key', keys⟩⟩
  · rfl
  · simp [Texts.neutral, toString]
  · rw [hkeys] at hlength
    simp at hlength

end Field

/-! ### Schemas -/

namespace Schema

variable {n : Numbering} {s t : Schema} {r : Registry}

/-- A model and what it becomes have foreign keys at the same fields, and those of the result are
called after these fields. -/
theorem foreignKeys_model {m m' : Model} (hs : ∀ f ∈ m.fields, f.SingleForeignKey)
    (hfields : List.Forall₂
      (fun f g => ∃ e, g = Field.result (s.outline n).newNames m.name.name e f) m.fields m'.fields) :
    m'.foreignKeys = m'.keyedFields.map (fun f => f.name.name ++ "_mapped") ∧
      m'.fields.map (·.foreignKeys.length) = m.fields.map (·.foreignKeys.length) := by
  constructor
  · refine flatMap_eq_map_filter fun g hg => ?_
    obtain ⟨f, hf, e, rfl⟩ := exists_left_of_forall₂ hfields hg
    exact Field.foreignKeys_result_eq _ _ _ (hs f hf)
  · refine map_eq_of_forall₂ ((forall₂_mem hfields).imp ?_)
    rintro f _ ⟨hf, e, rfl⟩
    rw [Field.foreignKeys_result _ _ _ (hs f hf), List.length_map]

/-- Names of foreign keys are as distinct as those of the fields. -/
theorem nodup_mapped_iff (fields : List Field) :
    (fields.map fun f => f.name.name ++ "_mapped").Nodup ↔ (fields.map (·.name.name)).Nodup := by
  have hmap : (fields.map fun f => f.name.name ++ "_mapped") =
      (fields.map (·.name.name)).map (· ++ "_mapped") := by
    rw [List.map_map]
    rfl
  rw [hmap]
  exact List.nodup_map_iff fun x y h => (String.append_left_inj _).mp h

/-- **Names of foreign keys.** If every field has one relation at most, and this one `map`, then an
obfuscation calls every foreign key after the new name of its field. So these names are distinct
within every model, and they are distinct all over the schema exactly if the new names of the
fields with a foreign key are. No foreign key is lost. -/
theorem foreignKeys_obfuscate (h : s.obfuscate n = .ok (t, r)) (hs : s.SingleForeignKeys) :
    (∀ m ∈ t.models, m.foreignKeys.Nodup) ∧
      t.foreignKeys = t.keyedFields.map (fun f => f.name.name ++ "_mapped") ∧
      (t.foreignKeys.Nodup ↔ (t.keyedFields.map (·.name.name)).Nodup) ∧
      t.models.map (·.fields.map (·.foreignKeys.length)) =
        s.models.map (·.fields.map (·.foreignKeys.length)) := by
  obtain ⟨haccepted, hbound, hmodels⟩ := parts_of_ok h
  have hdistinct := distinct_of_bound haccepted hbound
  have hnamed : ∀ m' ∈ t.models,
      m'.foreignKeys = m'.keyedFields.map (fun f => f.name.name ++ "_mapped") := by
    intro m' hm'
    obtain ⟨m, hm, -, -, hfields⟩ := exists_left_of_forall₂ hmodels hm'
    exact (foreignKeys_model (hs m hm) hfields).1
  have hall : t.foreignKeys = t.keyedFields.map fun f => f.name.name ++ "_mapped" := by
    rw [foreignKeys, keyedFields, List.map_flatMap]
    exact List.flatMap_congr hnamed
  refine ⟨?_, hall, ?_, ?_⟩
  · intro m' hm'
    rw [hnamed m' hm', nodup_mapped_iff]
    exact (hdistinct.fields m' hm').sublist (List.filter_sublist.map _)
  · rw [hall, nodup_mapped_iff]
  · refine map_eq_of_forall₂ (hmodels.imp ?_)
    rintro m m' ⟨hm, -, hfields⟩
    exact (foreignKeys_model (hs m hm) hfields).2

/-- Three models, two of which have foreign keys, on fields with different numbers. -/
def linked : Schema :=
  let here : Span := ⟨0, 0, 1⟩
  let named (name : String) (value : Value) : Argument := ⟨some ⟨name, here⟩, value, here⟩
  let only (name : String) : Value := .array [.path [name]]
  let field (name : String) (type : FieldType) (attributes : List Attribute) : ModelMember :=
    .field ⟨⟨name, here⟩, type, .required, attributes, none, here⟩
  let link (own other key : String) : Attribute := ⟨⟨"relation", here⟩,
    [named "fields" (only own), named "references" (only other), named "map" (.string key)], here⟩
  ⟨[.model ⟨⟨"User", here⟩, [field "id" (.scalar .int) []], here⟩,
    .model ⟨⟨"Post", here⟩, [
      field "authorId" (.scalar .int) [], field "editorId" (.scalar .int) [],
      field "author" (.named ⟨"User", here⟩) [link "authorId" "id" "author_fk"],
      field "editor" (.named ⟨"User", here⟩) [link "editorId" "id" "editor_fk"]], here⟩,
    .model ⟨⟨"Note", here⟩, [
      field "postId" (.scalar .int) [],
      field "post" (.named ⟨"Post", here⟩) [link "postId" "authorId" "note_fk"]], here⟩]⟩

theorem foreignKeys_obfuscate_linked : ∃ t r, linked.SingleForeignKeys ∧
    linked.obfuscate .perEnum = .ok (t, r) ∧ t.foreignKeys.Nodup ∧
      t.models.map (·.fields.map (·.foreignKeys.length)) = [[0], [0, 0, 1, 1], [0, 1]] := by
  have hsingle : linked.SingleForeignKeys := by decide +kernel
  have hok : (linked.obfuscate .perEnum).toOption.any (fun result =>
      decide (result.1.keyedFields.map (·.name.name)).Nodup) = true := by decide +kernel
  obtain ⟨result, hresult, hnames⟩ := exists_ok hok
  obtain ⟨-, -, hnodup, hlengths⟩ := foreignKeys_obfuscate hresult hsingle
  exact ⟨result.1, result.2, hsingle, hresult, hnodup.mpr hnames, hlengths.trans (by decide +kernel)⟩

/-- A text with two models, each with a foreign key on its second field. -/
def twinned : String :=
  "model User \x7b\n  id Int @id\n" ++
  "  post Post @relation(fields: [id], references: [id], map: \"user_fk\")\n\x7d\n\n" ++
  "model Post \x7b\n  id Int @id\n" ++
  "  user User @relation(fields: [id], references: [id], map: \"post_fk\")\n\x7d\n"

/-- Names of foreign keys that were distinct over all models need not stay so. -/
theorem foreignKeys_twinned : ∃ s, Schema.parse twinned = .ok s ∧
    s.SingleForeignKeys ∧ s.foreignKeys.Nodup ∧
    ∃ result, s.obfuscate .perEnum = .ok result ∧ ¬ result.1.foreignKeys.Nodup := by
  have hparse : (Schema.parse twinned).toOption.any (fun s => decide
      (s.SingleForeignKeys ∧ s.foreignKeys.Nodup ∧
      (s.obfuscate .perEnum).toOption.any (fun result =>
        decide (¬ result.1.foreignKeys.Nodup)) = true)) = true := by decide +kernel
  obtain ⟨s, hs, hsingle, hnodup, hresult⟩ := exists_ok hparse
  exact ⟨s, hs, hsingle, hnodup, exists_ok hresult⟩

end Schema

end Pseudonym

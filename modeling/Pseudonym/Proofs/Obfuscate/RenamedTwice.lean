/-
# Renaming twice

A renamed schema can be renamed again. Where two renamings lead from the
declared names of a schema to those of a third one, they lead from the whole
schema to what the third one makes of it. That takes a schema whose references
are to something declared: names that are not are not followed.
-/
import Pseudonym.Proofs.Obfuscate.Acceptance
import Pseudonym.Proofs.Obfuscate.Texts

namespace Pseudonym

variable {ρ ρ' ρ'' : Renaming}

/-! ### Values -/

namespace Value

variable {f g h : String → String} {scope : List String} {v : Value}

theorem renameItem_renameItem (hv : v.Names scope) (hscope : ∀ x ∈ scope, g (f x) = h x) :
    (v.renameItem f).renameItem g = v.renameItem h := by
  match v, hv with
  | .path [name], hv => simp only [renameItem, hscope name hv]

theorem renameItems_renameItems (hv : v.Lists scope) (hscope : ∀ x ∈ scope, g (f x) = h x) :
    (v.renameItems f).renameItems g = v.renameItems h := by
  match v, hv with
  | .array items, hv =>
    simp only [renameItems, List.map_map]
    congr 1
    exact List.map_congr_left fun item hitem => renameItem_renameItem (hv item hitem) hscope

theorem renameItem_renameItem_of_suits {type : FieldType} {values : Option (List String)}
    (hv : v.SuitsItem type values) (hscope : ∀ x ∈ values.getD [], g (f x) = h x) :
    (v.renameItem f).renameItem g = v.renameItem h := by
  cases v with
  | path segments => exact renameItem_renameItem hv hscope
  | _ => rfl

theorem renameDefault_renameDefault {type : FieldType} {values : Option (List String)}
    (hv : v.SuitsDefault type values) (hscope : ∀ x ∈ values.getD [], g (f x) = h x) :
    (v.renameDefault f).renameDefault g = v.renameDefault h := by
  cases hitems : v.array? with
  | some items =>
    obtain rfl := eq_array_of_array? hitems
    simp only [renameDefault, List.map_map]
    congr 1
    exact List.map_congr_left fun item hitem => renameItem_renameItem_of_suits (hv item hitem) hscope
  | none =>
    have hsuits : v.SuitsItem type values := by
      cases v with
      | array items => cases hitems
      | _ => exact hv
    rw [renameDefault_of_array?_none hitems, renameDefault_of_array?_none (array?_renameItem hitems),
      renameDefault_of_array?_none hitems, renameItem_renameItem_of_suits hsuits hscope]

end Value

/-! ### Attributes -/

/-- The names around a field, which has the second type when it is renamed, lead from one
renaming over another to a third. -/
structure FieldScopes.Leads (sc : FieldScopes) (ρ ρ' ρ'' : Renaming) (model : String)
    (type : FieldType) : Prop where
  keys : ∀ x ∈ sc.keys, ρ'.field (ρ.type model) (ρ.field model x) = ρ''.field model x
  targetKeys : ∀ target, sc.target = some target → ∀ x ∈ target.1,
    (type.rename ρ.type).scope ρ'.field (type.scope ρ.field x) = type.scope ρ''.field x
  targetRelations : ∀ target, sc.target = some target → ∀ x ∈ target.2,
    (type.rename ρ.type).scope ρ'.relation (type.scope ρ.relation x) = type.scope ρ''.relation x
  values : ∀ x ∈ sc.values.getD [],
    (type.rename ρ.type).scope ρ'.value (type.scope ρ.value x) = type.scope ρ''.value x

namespace Attribute

variable {sc : FieldScopes} {model : String} {type : FieldType} {a : Attribute}

/-- Changing the name of a relation twice. -/
theorem mapFirst_relation_twice {f g h : String → String}
    (hname : ∀ x, a.relationName? = some x → g (f x) = h x) :
    Argument.mapFirst namesRelation (.mapString g)
        (Argument.mapFirst namesRelation (.mapString f) a.args) =
      Argument.mapFirst namesRelation (.mapString h) a.args := by
  rw [Argument.mapFirst_mapFirst (namesRelation_mapString f)]
  refine Argument.mapFirst_congr_found fun arg harg => ?_
  cases hv : arg.value with
  | string text =>
    have hx : a.relationName? = some text := by
      rw [relationName?, harg, Option.bind_some, hv]
      rfl
    simp only [Value.mapString, hname text hx]
  | _ => rfl

/-- Changing the names in one list of a relation twice. -/
theorem mapFirst_list_twice {f g h : String → String} {name : String} {scope : List String}
    {v : Value} {args : List Argument} (hv : (args.find? (·.isNamed name)).map (·.value) = some v)
    (hlists : v.Lists scope) (hscope : ∀ x ∈ scope, g (f x) = h x) :
    Argument.mapFirst (·.isNamed name) (.renameItems g)
        (Argument.mapFirst (·.isNamed name) (.renameItems f) args) =
      Argument.mapFirst (·.isNamed name) (.renameItems h) args := by
  rw [Argument.mapFirst_mapFirst fun _ => id]
  refine Argument.mapFirst_congr_found fun arg harg => ?_
  rw [harg] at hv
  cases hv
  exact Value.renameItems_renameItems hlists hscope

theorem renameListArgs_twice (hsc : sc.Leads ρ ρ' ρ'' model type) (hlists : a.SuitsLists sc) :
    renameListArgs ρ' (ρ.type model) (type.rename ρ.type) (renameListArgs ρ model type a.args) =
      renameListArgs ρ'' model type a.args := by
  obtain ⟨target, htarget, ⟨v, hv, hreferences⟩, w, hw, hfields⟩ := hlists
  have hcomm := fun (f g : Value → Value) (l : List Argument) =>
    Argument.mapFirst_comm (p := (·.isNamed "references")) (q := (·.isNamed "fields"))
      (Argument.isNamed_excludes (by decide) f) (Argument.isNamed_excludes (by decide) g) l
  simp only [renameListArgs]
  rw [hcomm, mapFirst_list_twice hv hreferences (hsc.targetKeys target htarget), ← hcomm,
    ← hcomm, mapFirst_list_twice hw hfields hsc.keys, hcomm]

theorem rename_of_default (h : a.is "default" = true) :
    (a.renameDeclared ρ model).renameReferences ρ model type =
      a.mapArgs (Argument.mapHead (.renameDefault (type.scope ρ.value))) := by
  have hr : ¬a.is "relation" = true := by simp [is_of_ne h (show "default" ≠ "relation" by decide)]
  rw [renameDeclared_of_not_relation hr, renameReferences, if_pos h]

theorem rename_of_declares (h : a.is "relation" = true) (hd : a.declaresRelation = true) :
    (a.renameDeclared ρ model).renameReferences ρ model type =
      a.mapArgs fun args => renameListArgs ρ model type
        (Argument.mapFirst namesRelation (.mapString (ρ.relation model)) args) := by
  have hdeclared : a.renameDeclared ρ model =
      a.mapArgs (Argument.mapFirst namesRelation (.mapString (ρ.relation model))) := by
    simp [renameDeclared, h, hd]
  rw [hdeclared, renameReferences_of_declares (by simpa using h) (by simpa using hd)]
  rfl

theorem rename_of_bare (h : a.is "relation" = true) (hd : ¬a.declaresRelation = true) :
    (a.renameDeclared ρ model).renameReferences ρ model type =
      a.mapArgs (Argument.mapFirst namesRelation (.mapString (type.scope ρ.relation))) := by
  have hdeclared : a.renameDeclared ρ model = a := by simp [renameDeclared, hd]
  rw [hdeclared, renameReferences_of_relation h, renameRelationArgs, if_neg hd]

theorem rename_of_neither (h : ¬a.is "default" = true) (h' : ¬a.is "relation" = true) :
    (a.renameDeclared ρ model).renameReferences ρ model type = a := by
  rw [renameDeclared_of_not_relation h', renameReferences, if_neg h, if_neg h']

/-- Renaming an attribute of a field twice. -/
theorem rename_rename_onField (hsc : sc.Leads ρ ρ' ρ'' model type)
    (hrelation : ∀ x, a.declaredRelation? = some x →
      ρ'.relation (ρ.type model) (ρ.relation model x) = ρ''.relation model x)
    (hsuits : a.SuitsField type sc) :
    (((a.renameDeclared ρ model).renameReferences ρ model type).renameDeclared ρ'
        (ρ.type model)).renameReferences ρ' (ρ.type model) (type.rename ρ.type) =
      (a.renameDeclared ρ'' model).renameReferences ρ'' model type := by
  by_cases hd : a.is "default" = true
  · obtain ⟨first, rest, hargs, hfirst⟩ := hsuits.1 hd
    rw [rename_of_default hd, rename_of_default hd, rename_of_default (by simpa using hd)]
    refine congrArg (Attribute.mk a.name · a.span) ?_
    rw [mapArgs_args, hargs]
    simp only [Argument.mapHead, Argument.mapValue_mapValue]
    rw [Argument.mapValue_congr (Value.renameDefault_renameDefault hfirst hsc.values)]
  by_cases hr : a.is "relation" = true
  · obtain ⟨-, -, htarget⟩ := hsuits.2 hr
    unfold SuitsTarget bareRelation? at htarget
    by_cases hdeclares : a.declaresRelation = true
    · rw [if_pos hdeclares] at htarget
      have hname : ∀ x, a.relationName? = some x →
          ρ'.relation (ρ.type model) (ρ.relation model x) = ρ''.relation model x := fun x hx =>
        hrelation x (by simp [declaredRelation?, hr, hdeclares, hx])
      have hdeclares' : (a.mapArgs fun args => renameListArgs ρ model type
          (Argument.mapFirst namesRelation (.mapString (ρ.relation model)) args)).declaresRelation =
            true := by
        simpa [declaresRelation, hasArg, renameListArgs] using hdeclares
      rw [rename_of_declares hr hdeclares, rename_of_declares hr hdeclares,
        rename_of_declares (by simpa using hr) hdeclares']
      refine congrArg (Attribute.mk a.name · a.span) ?_
      -- the name and the lists stand in different arguments, so each is changed by itself
      simp only [mapArgs_args]
      rw [renameListArgs_mapFirst, mapFirst_relation_twice hname,
        ← renameListArgs_mapFirst, ← renameListArgs_mapFirst, renameListArgs_twice hsc htarget,
        renameListArgs_mapFirst]
    · rw [if_neg hdeclares] at htarget
      have hname : ∀ x, a.relationName? = some x → (type.rename ρ.type).scope ρ'.relation
          (type.scope ρ.relation x) = type.scope ρ''.relation x := by
        intro x hx
        rw [hx] at htarget
        obtain ⟨target, ht, hmem⟩ := htarget
        exact hsc.targetRelations target ht x hmem
      rw [rename_of_bare hr hdeclares, rename_of_bare hr hdeclares,
        rename_of_bare (by simpa using hr) (by simpa using hdeclares)]
      exact congrArg (Attribute.mk a.name · a.span) (mapFirst_relation_twice hname)
  · rw [rename_of_neither hd hr, rename_of_neither hd hr, rename_of_neither hd hr]

theorem namesKey_renameKeyArg (σ : Renaming) (m : String) (arg : Argument) :
    (renameKeyArg σ m arg).namesKey = arg.namesKey := by
  unfold renameKeyArg
  split <;> rfl

/-- Renaming an argument of `@@unique` twice. -/
theorem renameKeyArg_twice {keys : List String} {arg : Argument}
    (hkeys : ∀ x ∈ keys, ρ'.field (ρ.type model) (ρ.field model x) = ρ''.field model x)
    (hname : ∀ x, arg.keyName? = some x → x ∈ keys)
    (hlists : ∀ items, arg.value.array? = some items → arg.value.Lists keys) :
    renameKeyArg ρ' (ρ.type model) (renameKeyArg ρ model arg) = renameKeyArg ρ'' model arg := by
  have hlist := fun (h : arg.value.Lists keys) => Value.renameItems_renameItems h hkeys
  rw [renameKeyArg, namesKey_renameKeyArg, renameKeyArg, renameKeyArg]
  by_cases hk : arg.namesKey = true
  · simp only [hk, ↓reduceIte, Argument.mapValue_mapValue]
    refine Argument.mapValue_congr ?_
    cases hv : arg.value with
    | string text =>
      have hx : text ∈ keys := hname text (by rw [Argument.keyName?, if_pos hk, hv]; rfl)
      simp only [Value.mapString, Value.renameItems, hkeys text hx]
    | array items =>
      rw [hv] at hlist hlists
      exact hlist (hlists items rfl)
    | _ => rfl
  · simp only [hk, Bool.false_eq_true, ↓reduceIte, Argument.mapValue_mapValue]
    refine Argument.mapValue_congr ?_
    cases hv : arg.value with
    | array items =>
      rw [hv] at hlist hlists
      exact hlist (hlists items rfl)
    | _ => rfl

theorem rename_of_list (h : (a.is "index" || a.is "id") = true) :
    (a.renameKeys ρ model).renameLists ρ model =
      a.mapArgs (Argument.mapHead (.renameItems (ρ.field model))) := by
  have hu : a.is "unique" = false := by
    rcases Bool.or_eq_true_iff.mp h with h | h
    · exact is_of_ne h (by decide)
    · exact is_of_ne h (by decide)
  have hkeys : a.renameKeys ρ model = a := by simp [renameKeys, hu]
  rw [hkeys, renameLists, if_pos h]

theorem rename_of_unique (h : a.is "unique" = true) :
    (a.renameKeys ρ model).renameLists ρ model = a.mapArgs (.map (renameKeyArg ρ model)) := by
  have hi : a.is "index" = false := is_of_ne h (by decide)
  have hid : a.is "id" = false := is_of_ne h (by decide)
  simp only [renameLists, renameKeys_is, hi, hid, h, Bool.or_self, Bool.false_eq_true, ↓reduceIte]
  simp only [renameKeys, h, ↓reduceIte, mapArgs, List.map_map]
  rfl

/-- Renaming an attribute of a model twice. -/
theorem rename_rename_onModel {keys : List String}
    (hkeys : ∀ x ∈ keys, ρ'.field (ρ.type model) (ρ.field model x) = ρ''.field model x)
    (hnames : ∀ x ∈ a.keyNames, x ∈ keys) (hsuits : a.SuitsModel keys) :
    (((a.renameKeys ρ model).renameLists ρ model).renameKeys ρ' (ρ.type model)).renameLists ρ'
        (ρ.type model) = (a.renameKeys ρ'' model).renameLists ρ'' model := by
  by_cases hl : (a.is "index" || a.is "id") = true
  · have hfirst : a.FirstLists keys := by
      rcases Bool.or_eq_true_iff.mp hl with h | h
      · exact (hsuits.1 h).1
      · exact hsuits.2.1 h
    obtain ⟨first, rest, hargs, hv⟩ := hfirst
    rw [rename_of_list hl, rename_of_list hl, rename_of_list (by simpa using hl)]
    refine congrArg (Attribute.mk a.name · a.span) ?_
    rw [mapArgs_args, hargs]
    simp only [Argument.mapHead, Argument.mapValue_mapValue]
    rw [Argument.mapValue_congr (Value.renameItems_renameItems hv hkeys)]
  by_cases hu : a.is "unique" = true
  · rw [rename_of_unique hu, rename_of_unique hu, rename_of_unique (by simpa using hu)]
    refine congrArg (Attribute.mk a.name · a.span) ?_
    rw [mapArgs_args, List.map_map]
    refine List.map_congr_left fun arg harg => ?_
    refine renameKeyArg_twice hkeys (fun x hx => hnames x ?_) (hsuits.2.2 hu arg harg)
    rw [keyNames, if_pos hu]
    exact List.mem_filterMap.mpr ⟨arg, harg, hx⟩
  · have hsame : ∀ (σ : Renaming) (m : String), (a.renameKeys σ m).renameLists σ m = a := by
      intro σ m
      simp [renameKeys, renameLists, hl, hu]
    rw [hsame, hsame, hsame]

end Attribute

/-! ### Schemas -/

namespace Schema

/-- The declared names of a schema lead from one renaming over another to a third. -/
structure Leads (s : Schema) (ρ ρ' ρ'' : Renaming) : Prop where
  builtin : ∀ x ∈ s.typeNames, x ≠ "Unsupported" → ρ.type x ≠ "Unsupported"
  type : ∀ x ∈ s.typeNames, ρ'.type (ρ.type x) = ρ''.type x
  field : ∀ m ∈ s.models, ∀ x ∈ m.keyNames,
    ρ'.field (ρ.type m.name.name) (ρ.field m.name.name x) = ρ''.field m.name.name x
  relation : ∀ m ∈ s.models, ∀ x ∈ m.relationNames,
    ρ'.relation (ρ.type m.name.name) (ρ.relation m.name.name x) = ρ''.relation m.name.name x
  value : ∀ e ∈ s.enums, ∀ x ∈ e.valueNames,
    ρ'.value (ρ.type e.name.name) (ρ.value e.name.name x) = ρ''.value e.name.name x

variable {s : Schema} {m : Model}

theorem Leads.rename_type (h : s.Leads ρ ρ' ρ'') {type : FieldType}
    (htype : ∀ name, type.typeName? = some name → name ∈ s.typeNames) :
    (type.rename ρ.type).rename ρ'.type = type.rename ρ''.type := by
  cases type with
  | named ident =>
    by_cases hu : ident.name = "Unsupported"
    · simp only [FieldType.rename, hu, ↓reduceIte]
    · have hname := htype ident.name (by rw [FieldType.typeName?, if_neg hu])
      have hne := h.builtin _ hname hu
      simp only [FieldType.rename, hu, ↓reduceIte, Ident.rename, hne, h.type _ hname]
  | _ => rfl

/-- The scope of the block that a type refers to, before and after a renaming. -/
theorem scope_of_typeName? {type : FieldType} {name : String} (htype : type.typeName? = some name)
    (f : String → String → String) :
    type.scope f = f name ∧ (type.rename ρ.type).scope f = f (ρ.type name) := by
  cases type with
  | named ident =>
    by_cases hu : ident.name = "Unsupported"
    · rw [FieldType.typeName?, if_pos hu] at htype
      cases htype
    · rw [FieldType.typeName?, if_neg hu] at htype
      cases htype
      rw [FieldType.rename, if_neg hu]
      exact ⟨rfl, rfl⟩
  | _ => cases htype

theorem modelOf_eq_some {type : FieldType} {t : Model} (h : s.modelOf type = some t) :
    t ∈ s.models ∧ type.typeName? = some t.name.name := by
  obtain ⟨name, hname, hfind⟩ := Option.bind_eq_some_iff.mp h
  refine ⟨List.mem_of_find?_eq_some hfind, ?_⟩
  have hbeq := List.find?_some hfind
  rw [hname, ← beq_iff_eq.mp hbeq]

theorem enumOf_eq_some {type : FieldType} {e : Enum} (h : s.enumOf type = some e) :
    e ∈ s.enums ∧ type.typeName? = some e.name.name := by
  obtain ⟨name, hname, hfind⟩ := Option.bind_eq_some_iff.mp h
  refine ⟨List.mem_of_find?_eq_some hfind, ?_⟩
  have hbeq := List.find?_some hfind
  rw [hname, ← beq_iff_eq.mp hbeq]

theorem Leads.scopes (h : s.Leads ρ ρ' ρ'') (hm : m ∈ s.models) (type : FieldType) :
    (s.scopesAt m type).Leads ρ ρ' ρ'' m.name.name type where
  keys := h.field m hm
  targetKeys target ht x hx := by
    obtain ⟨t, hmodel, rfl⟩ := Option.map_eq_some_iff.mp ht
    obtain ⟨hmem, htype⟩ := modelOf_eq_some hmodel
    rw [(scope_of_typeName? htype _).2, (scope_of_typeName? (ρ := ρ) htype _).1,
      (scope_of_typeName? (ρ := ρ) htype _).1, h.field t hmem x hx]
  targetRelations target ht x hx := by
    obtain ⟨t, hmodel, rfl⟩ := Option.map_eq_some_iff.mp ht
    obtain ⟨hmem, htype⟩ := modelOf_eq_some hmodel
    rw [(scope_of_typeName? htype _).2, (scope_of_typeName? (ρ := ρ) htype _).1,
      (scope_of_typeName? (ρ := ρ) htype _).1, h.relation t hmem x hx]
  values x hx := by
    cases he : s.enumOf type with
    | none =>
      have hnone : (s.scopesAt m type).values = none := by rw [scopesAt, he]; rfl
      rw [hnone] at hx
      cases hx
    | some e =>
      have hsome : (s.scopesAt m type).values = some e.valueNames := by rw [scopesAt, he]; rfl
      rw [hsome] at hx
      obtain ⟨hmem, htype⟩ := enumOf_eq_some he
      rw [(scope_of_typeName? htype _).2, (scope_of_typeName? (ρ := ρ) htype _).1,
        (scope_of_typeName? (ρ := ρ) htype _).1, h.value e hmem x hx]

theorem Leads.rename_field (h : s.Leads ρ ρ' ρ'') (hm : m ∈ s.models) {f : Field}
    (hf : .field f ∈ m.members) (hsuits : f.Suits s m) :
    (((f.renameDeclared ρ m.name.name).renameReferences ρ m.name.name).renameDeclared ρ'
        (ρ.type m.name.name)).renameReferences ρ' (ρ.type m.name.name) =
      (f.renameDeclared ρ'' m.name.name).renameReferences ρ'' m.name.name := by
  have hname : f.name.name ∈ m.keyNames := Model.mem_keyNames.mpr
    (List.mem_flatMap.mpr ⟨_, hf, List.mem_singleton.mpr rfl⟩)
  simp only [Field.renameDeclared, Field.renameReferences, List.map_map, Ident.rename,
    h.rename_type hsuits.1, h.field m hm _ hname]
  congr 1
  refine List.map_congr_left fun a ha => ?_
  refine Attribute.rename_rename_onField (h.scopes hm f.type) (fun x hx => h.relation m hm x ?_)
    (hsuits.2 a ha)
  exact List.mem_flatMap.mpr ⟨_, hf, List.mem_filterMap.mpr ⟨a, ha, hx⟩⟩

theorem Leads.rename_member (h : s.Leads ρ ρ' ρ'') (hm : m ∈ s.models) {member : ModelMember}
    (hmember : member ∈ m.members) (hsuits : member.Suits s m) :
    (((member.renameDeclared ρ m.name.name).renameReferences ρ m.name.name).renameDeclared ρ'
        (ρ.type m.name.name)).renameReferences ρ' (ρ.type m.name.name) =
      (member.renameDeclared ρ'' m.name.name).renameReferences ρ'' m.name.name := by
  cases member with
  | field f => exact congrArg ModelMember.field (h.rename_field hm hmember hsuits)
  | blockAttribute a =>
    have hnames : ∀ x ∈ a.attr.keyNames, x ∈ m.keyNames := fun x hx => Model.mem_keyNames.mpr
      (List.mem_flatMap.mpr ⟨_, hmember, hx⟩)
    simp only [ModelMember.renameDeclared, ModelMember.renameReferences,
      Attribute.rename_rename_onModel (h.field m hm) hnames hsuits]
  | comment c => rfl

/-- **Renaming twice.** On an accepted schema, two renamings are the third that they lead to. -/
theorem rename_rename (hs : s.Accepted) (h : s.Leads ρ ρ' ρ'') :
    (s.rename ρ).rename ρ' = s.rename ρ'' := by
  have hsuits := (s.accepted_iff.mpr hs).2
  simp only [rename, List.map_map]
  congr 1
  refine List.map_congr_left fun d hd => ?_
  rw [Function.comp_apply]
  cases d with
  | model m =>
    have hm : m ∈ s.models := List.mem_filterMap.mpr ⟨_, hd, rfl⟩
    have hname : m.name.name ∈ s.typeNames := List.mem_filterMap.mpr ⟨_, hd, rfl⟩
    simp only [Declaration.rename, Model.rename, Ident.rename, List.map_map, h.type _ hname]
    congr 2
    exact List.map_congr_left fun member hmember =>
      h.rename_member hm hmember (hsuits _ hd member hmember)
  | enum e =>
    have he : e ∈ s.enums := List.mem_filterMap.mpr ⟨_, hd, rfl⟩
    have hname : e.name.name ∈ s.typeNames := List.mem_filterMap.mpr ⟨_, hd, rfl⟩
    simp only [Declaration.rename, Enum.rename, Ident.rename, List.map_map, h.type _ hname]
    congr 2
    refine List.map_congr_left fun member hmember => ?_
    cases member with
    | value v =>
      have hv : v.name.name ∈ e.valueNames := List.mem_map.mpr
        ⟨v, List.mem_filterMap.mpr ⟨_, hmember, rfl⟩, rfl⟩
      simp only [Function.comp_apply, EnumMember.rename, Ident.rename, h.value e he _ hv]
    | blockAttribute a => rfl
    | comment c => rfl
  | config b => rfl
  | comments b => rfl

end Schema

/-! ### Renaming nothing -/

/-- The renaming that leaves all names. -/
def Renaming.same : Renaming where
  type := id
  field _ := id
  value _ := id
  relation _ := id

theorem FieldType.scope_same (type : FieldType) : (type.scope fun _ => id) = id := by
  cases type <;> rfl

theorem FieldType.rename_id (type : FieldType) : type.rename id = type := by
  cases type with
  | named ident =>
    rw [FieldType.rename]
    split <;> rfl
  | _ => rfl

namespace Value

theorem mapString_id (v : Value) : v.mapString id = v := by
  cases v <;> rfl

theorem renameItem_id (v : Value) : v.renameItem id = v := by
  match v with
  | .path [] => rfl
  | .path [_] => rfl
  | .path (_ :: _ :: _) => rfl
  | .string _ | .int _ | .number _ | .boolean _ | .call _ _ | .array _ => rfl

theorem map_renameItem_id (items : List Value) : items.map (renameItem id) = items := by
  rw [funext renameItem_id]
  exact List.map_id' items

theorem renameItems_id (v : Value) : v.renameItems id = v := by
  cases v with
  | array items => rw [renameItems, map_renameItem_id]
  | _ => rfl

theorem renameDefault_id (v : Value) : v.renameDefault id = v := by
  cases v with
  | array items => rw [renameDefault, map_renameItem_id]
  | path segments => exact renameItem_id (.path segments)
  | _ => rfl

end Value

namespace Argument

theorem mapValue_id {f : Value → Value} (hf : ∀ v, f v = v) (arg : Argument) :
    arg.mapValue f = arg := by
  cases arg
  rw [mapValue, hf]

theorem mapHead_id {f : Value → Value} (hf : ∀ v, f v = v) (args : List Argument) :
    mapHead f args = args := by
  cases args with
  | nil => rfl
  | cons first rest => rw [mapHead, mapValue_id hf]

end Argument

namespace Attribute

variable {model : String} {type : FieldType}

theorem renameDeclared_same (a : Attribute) : a.renameDeclared .same model = a := by
  unfold renameDeclared
  split
  · rw [mapArgs, Renaming.same, Argument.mapFirst_id fun arg _ => arg.value.mapString_id]
  · rfl

theorem renameReferences_same (a : Attribute) : a.renameReferences .same model type = a := by
  have hitems := fun (x : String) (args : List Argument) =>
    Argument.mapFirst_id (p := (·.isNamed x)) (fun arg _ => arg.value.renameItems_id) args
  unfold renameReferences
  split
  · rw [mapArgs, Renaming.same, type.scope_same, Argument.mapHead_id Value.renameDefault_id]
  · split
    · rw [mapArgs, renameRelationArgs, Renaming.same, type.scope_same]
      split
      · rw [renameListArgs, type.scope_same, hitems, hitems]
      · rw [Argument.mapFirst_id fun arg _ => arg.value.mapString_id]
    · rfl

theorem renameKeys_same (a : Attribute) : a.renameKeys .same model = a := by
  have harg : ∀ arg : Argument,
      (if arg.namesKey then arg.mapValue (.mapString (Renaming.same.field model)) else arg) = arg := by
    intro arg
    split
    · exact Argument.mapValue_id Value.mapString_id arg
    · rfl
  unfold renameKeys
  split
  · simp only [mapArgs, harg, List.map_id']
  · rfl

theorem renameLists_same (a : Attribute) : a.renameLists .same model = a := by
  unfold renameLists
  split
  · rw [mapArgs, Renaming.same, Argument.mapHead_id Value.renameItems_id]
  · split
    · simp only [mapArgs, Renaming.same, Argument.mapValue_id Value.renameItems_id, List.map_id']
    · rfl

end Attribute

theorem Field.rename_same (model : String) (f : Field) :
    (f.renameDeclared .same model).renameReferences .same model = f := by
  simp only [renameDeclared, renameReferences, Attribute.renameDeclared_same,
    Attribute.renameReferences_same, List.map_id']
  simp only [Renaming.same, FieldType.rename_id]
  rfl

theorem ModelMember.rename_same (model : String) (member : ModelMember) :
    (member.renameDeclared .same model).renameReferences .same model = member := by
  cases member with
  | field f => exact congrArg ModelMember.field (f.rename_same model)
  | blockAttribute a =>
    simp only [renameDeclared, renameReferences, Attribute.renameKeys_same, Attribute.renameLists_same]
  | comment c => rfl

theorem Declaration.rename_same (d : Declaration) : d.rename .same = d := by
  cases d with
  | model m =>
    simp only [rename, Model.rename, ModelMember.rename_same, List.map_id']
    rfl
  | enum e =>
    have hmember : ∀ member : EnumMember, member.rename .same e.name.name = member := by
      intro member
      cases member <;> rfl
    simp only [rename, Enum.rename, hmember, List.map_id']
    rfl
  | config b => rfl
  | comments b => rfl

theorem Schema.rename_same (s : Schema) : s.rename .same = s := by
  simp only [rename, Declaration.rename_same, List.map_id']

end Pseudonym

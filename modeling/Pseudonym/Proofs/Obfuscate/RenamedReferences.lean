/-
# Resolving renamed references

The second step of an obfuscation, run on two schemas that differ by a
renaming of their references, gives the same result in the registries of the
two sets of names: a reference is looked up by its old name, in the scope of
what it points at, and only its place among the declared names matters.
-/
import Pseudonym.Proofs.Obfuscate.RenamedDeclarations

namespace Pseudonym

variable {ρ : Renaming} {n : Numbering} {o : Outline} {k : Nat} {m : ModelOutline} {sign : String}
  {site : FieldSite} {type : FieldType}

/-! ### Lists of fields -/

namespace Value

theorem alike_resolveItem (hρ : ρ.Faithful) (hk : o.models[k]? = some m) (v : Value) :
    Alike Eq (v.resolveItem (o.registry n) sign (modelName k))
      ((v.renameItem (ρ.field m.name)).resolveItem ((o.rename ρ).registry n) sign (modelName k)) := by
  cases v with
  | path segments =>
    match segments with
    | [name] =>
      refine (Outline.alike_resolveField hρ hk name).bind ?_
      rintro new _ rfl
      exact rfl
    | [] => exact Alike.refl _
    | _ :: _ :: _ => exact Alike.refl _
  | _ => exact Alike.refl _

theorem alike_resolveFields (hρ : ρ.Faithful) (hk : o.models[k]? = some m) (v : Value) :
    Alike Eq (v.resolveFields (o.registry n) sign (modelName k))
      ((v.renameItems (ρ.field m.name)).resolveFields ((o.rename ρ).registry n) sign
        (modelName k)) := by
  cases v with
  | array items =>
    refine (Alike.mapM_eq fun v _ => alike_resolveItem hρ hk v).bind ?_
    rintro items _ rfl
    exact rfl
  | _ => exact Alike.refl _

theorem eq_array_of_array? {v : Value} {items : List Value} (h : v.array? = some items) :
    v = .array items := by
  cases v <;> cases h
  rfl

theorem renameDefault_of_array?_none {f : String → String} {v : Value} (h : v.array? = none) :
    v.renameDefault f = v.renameItem f := by
  cases v with
  | array items => cases h
  | _ => rfl

theorem array?_renameItem {f : String → String} {v : Value} (h : v.array? = none) :
    (v.renameItem f).array? = none := by
  unfold renameItem
  split
  · rfl
  · exact h

end Value

/-! ### Types -/

/-- A type, and what it is resolved to: the model or the enum of that name, or itself if it is
built in. -/
inductive FieldType.Resolved (o : Outline) : FieldType → FieldType → Prop
  | model {ident : Ident} (hu : ident.name ≠ "Unsupported") (hm : ident.name ∈ o.modelNames) :
    Resolved o (.named ident) (.named (ident.rename (modelName (o.modelNames.idxOf ident.name))))
  | enum {ident : Ident} (hu : ident.name ≠ "Unsupported") (hm : ident.name ∉ o.modelNames)
    (he : ident.name ∈ o.enumNames) :
    Resolved o (.named ident) (.named (ident.rename (enumName (o.enumNames.idxOf ident.name))))
  | builtin {type : FieldType} (h : ∀ ident, type.reference? = some ident → ident.name = "Unsupported") :
    Resolved o type type

/-- A type that is found is resolved to what was found. -/
theorem FieldType.Resolved.of_type? {ident : Ident} {new : String}
    (hu : ident.name ≠ "Unsupported") (h : o.type? ident.name = some new) :
    Resolved o (.named ident) (.named (ident.rename new)) := by
  unfold Outline.type? at h
  by_cases hm : ident.name ∈ o.modelNames
  · rw [if_pos hm] at h
    cases h
    exact .model hu hm
  rw [if_neg hm] at h
  by_cases he : ident.name ∈ o.enumNames
  · rw [if_pos he] at h
    cases h
    exact .enum hu hm he
  · rw [if_neg he] at h
    cases h

theorem FieldType.alike_resolve (hρ : ρ.Faithful) (type : FieldType) :
    Alike (fun t t' => t = t' ∧ type.Resolved o t) (type.resolve (o.registry n))
      ((type.rename ρ.type).resolve ((o.rename ρ).registry n)) := by
  cases type with
  | scalar type => exact ⟨rfl, .builtin (by simp [reference?])⟩
  | unsupported text => exact ⟨rfl, .builtin (by simp [reference?])⟩
  | named ident =>
    by_cases hu : ident.name = "Unsupported"
    · simp only [resolve, FieldType.rename, hu, ↓reduceIte, beq_self_eq_true]
      exact ⟨rfl, .builtin (by simp [reference?, hu])⟩
    have hu' : ρ.type ident.name ≠ "Unsupported" := fun h => hu (hρ.builtin _ h)
    simp only [resolve, FieldType.rename, hu, hu', ↓reduceIte, Ident.rename, ne_eq,
      not_false_eq_true, beq_false_of_ne, Bool.false_eq_true]
    refine Alike.locate ?_ _
    rw [Outline.resolveType_registry, Outline.resolveType_registry, Outline.type?_rename hρ]
    cases ht : o.type? ident.name with
    | none => exact rfl
    | some new => exact ⟨rfl, .of_type? hu ht⟩

namespace FieldType.Resolved

/-- A type whose new name is that of an enum is the type of an enum. -/
theorem of_isEnum (h : type.Resolved o site.type) {enum : String}
    (he : site.target?.filter ((o.registry n).isEnum ·) = some enum) :
    ∃ k e, enum = enumName k ∧ o.enums[k]? = some e ∧ ∀ f, type.scope f = f e.name := by
  obtain ⟨ht, he⟩ := Option.filter_eq_some_iff.mp he
  obtain ⟨ident, hi, rfl⟩ := Option.map_eq_some_iff.mp ht
  generalize site.type = t at h hi
  cases h with
  | model =>
    cases hi
    simp [Ident.rename] at he
  | enum hu hm hname =>
    cases hi
    obtain ⟨e, hk, hn⟩ := getElem?_idxOf (f := EnumOutline.name) hname
    exact ⟨_, e, rfl, hk, fun f => congrArg f hn.symm⟩
  | builtin hb => simp [hb ident hi] at he

/-- A type whose new name is that of a model is the type of a model. -/
theorem of_isModel (h : type.Resolved o site.type) {model : String}
    (hm : site.target?.filter ((o.registry n).isModel ·) = some model) :
    ∃ k m, model = modelName k ∧ o.models[k]? = some m ∧ ∀ f, type.scope f = f m.name := by
  obtain ⟨ht, hm⟩ := Option.filter_eq_some_iff.mp hm
  obtain ⟨ident, hi, rfl⟩ := Option.map_eq_some_iff.mp ht
  generalize site.type = t at h hi
  cases h with
  | model hu hname =>
    cases hi
    obtain ⟨m, hk, hn⟩ := getElem?_idxOf (f := ModelOutline.name) hname
    exact ⟨_, m, rfl, hk, fun f => congrArg f hn.symm⟩
  | enum =>
    cases hi
    simp [Ident.rename] at hm
  | builtin hb => simp [hb ident hi] at hm

end FieldType.Resolved

/-! ### Default values -/

namespace FieldSite

theorem alike_itemDefault (hρ : ρ.Faithful) (h : type.Resolved o site.type) (v : Value) :
    Alike Eq (site.itemDefault (o.registry n) v)
      (site.itemDefault ((o.rename ρ).registry n) (v.renameItem (type.scope ρ.value))) := by
  cases v with
  | path segments =>
    have hpath : ∃ segments', (Value.path segments).renameItem (type.scope ρ.value) =
        .path segments' := by
      unfold Value.renameItem
      split <;> exact ⟨_, rfl⟩
    obtain ⟨segments', hs⟩ := hpath
    rw [hs]
    simp only [itemDefault, constantDefault, Outline.isEnum_rename]
    cases he : site.target?.filter ((o.registry n).isEnum ·) with
    | none => exact rfl
    | some enum =>
      obtain ⟨k, e, rfl, hk, hscope⟩ := h.of_isEnum he
      rw [hscope] at hs
      match segments, hs with
      | [name], rfl =>
        refine (Outline.alike_resolveValue hρ hk name).bind ?_
        rintro new _ rfl
        exact rfl
      | [], rfl => exact Alike.refl _
      | _ :: _ :: _, rfl => exact Alike.refl _
  | _ => exact Alike.refl _

theorem default_of_array?_none (r : Registry) {v : Value} (h : v.array? = none) :
    site.default r v = site.itemDefault r v := by
  cases v with
  | array items => cases h
  | _ => rfl

theorem alike_default (hρ : ρ.Faithful) (h : type.Resolved o site.type) (v : Value) :
    Alike Eq (site.default (o.registry n) v)
      (site.default ((o.rename ρ).registry n) (v.renameDefault (type.scope ρ.value))) := by
  cases hv : v.array? with
  | some items =>
    obtain rfl := Value.eq_array_of_array? hv
    refine (Alike.mapM_eq fun v _ => alike_itemDefault hρ h v).bind ?_
    rintro items _ rfl
    exact rfl
  | none =>
    rw [Value.renameDefault_of_array?_none hv, default_of_array?_none _ hv,
      default_of_array?_none _ (Value.array?_renameItem hv)]
    exact alike_itemDefault hρ h v

end FieldSite

/-! ### Attributes of fields -/

namespace Attribute

theorem alike_resolveDefault (hρ : ρ.Faithful) (h : type.Resolved o site.type) (a : Attribute) :
    Alike Eq (a.resolveDefault (o.registry n) site)
      ((a.mapArgs (Argument.mapHead (.renameDefault (type.scope ρ.value)))).resolveDefault
        ((o.rename ρ).registry n) site) := by
  unfold resolveDefault
  rw [mapArgs_args]
  cases a.args with
  | nil => exact rfl
  | cons first rest =>
    refine Alike.locate ((FieldSite.alike_default hρ h first.value).bind ?_) _
    rintro v _ rfl
    exact rfl

theorem updateArg_eq (a : Attribute) (x : String) (v : Value) :
    a.updateArg x v = a.mapArgs (Argument.mapFirst (·.isNamed x) fun _ => v) := by
  rw [updateArg, Argument.setFirst_eq_mapFirst]
  rfl

theorem arg?_mapArgs {G : List Argument → List Argument} {x : String}
    (hfind : ∀ args, (G args).find? (·.isNamed x) = args.find? (·.isNamed x)) (a : Attribute) :
    (a.mapArgs G).arg? x = a.arg? x := by
  rw [arg?, mapArgs_args, hfind]
  rfl

theorem arg?_mapFirst (a : Attribute) (x : String) (f : Value → Value) :
    (a.mapArgs (Argument.mapFirst (·.isNamed x) f)).arg? x = (a.arg? x).map f := by
  rw [arg?, mapArgs_args, Argument.find?_mapFirst fun _ => id, arg?, Option.map_map, Option.map_map]
  rfl

/-- A list of a relation is resolved, and what the renaming did to it is gone. What it did to
other arguments is still there. -/
theorem alike_resolveRelationList {G : List Argument → List Argument} {x target : String}
    {f : String → String}
    (hfind : ∀ args, (G args).find? (·.isNamed x) = args.find? (·.isNamed x))
    (hset : ∀ v args, Argument.mapFirst (·.isNamed x) (fun _ => v) (G args) =
      G (Argument.mapFirst (·.isNamed x) (fun _ => v) args))
    (hv : ∀ v : Value, Alike Eq (v.resolveFields (o.registry n) "@relation" target)
      ((v.renameItems f).resolveFields ((o.rename ρ).registry n) "@relation" target))
    (a : Attribute) :
    Alike (fun b b' => b.mapArgs G = b')
      (a.resolveRelationList (o.registry n) site x target)
      (((a.mapArgs (Argument.mapFirst (·.isNamed x) (.renameItems f))).mapArgs G).resolveRelationList
        ((o.rename ρ).registry n) site x target) := by
  unfold resolveRelationList
  rw [arg?_mapArgs hfind, arg?_mapFirst]
  cases a.arg? x with
  | none => exact rfl
  | some v =>
    refine Alike.locate ((hv v).bind ?_) _
    rintro new _ rfl
    show _ = _
    have hagain := Argument.mapFirst_mapFirst (p := (·.isNamed x)) (f := .renameItems f)
      (g := fun _ => new) fun _ => id
    simp only [updateArg_eq, mapArgs, hset, hagain]

theorem alike_resolveRelationLists (hρ : ρ.Faithful) (h : type.Resolved o site.type)
    (hk : o.models[k]? = some m) (hs : site.model = modelName k) (a : Attribute) :
    Alike Eq (a.resolveRelationLists (o.registry n) site)
      ((a.mapArgs (renameListArgs ρ m.name type)).resolveRelationLists
        ((o.rename ρ).registry n) site) := by
  simp only [resolveRelationLists, Outline.isModel_rename]
  cases ht : site.target?.filter ((o.registry n).isModel ·) with
  | none => exact rfl
  | some target =>
    obtain ⟨j, m', rfl, hj, hscope⟩ := h.of_isModel ht
    have hexcludes := Argument.isNamed_excludes (show "fields" ≠ "references" by decide)
      (.renameItems (ρ.field m.name))
    refine Alike.bind (alike_resolveRelationList
      (G := Argument.mapFirst (·.isNamed "fields") (.renameItems (ρ.field m.name)))
      (f := type.scope ρ.field) (Argument.find?_mapFirst_of_excludes hexcludes) (fun v args => ?_)
      (fun v => ?_) a) ?_
    · exact Argument.mapFirst_comm
        (Argument.isNamed_excludes (show "references" ≠ "fields" by decide) _) hexcludes args
    · rw [hscope]
      exact Value.alike_resolveFields hρ hj v
    · rintro b _ rfl
      rw [hs]
      exact alike_resolveRelationList (G := id) (fun _ => rfl) (fun _ _ => rfl)
        (Value.alike_resolveFields hρ hk) b

theorem arg?_of_not_declares {a : Attribute} (h : ¬a.declaresRelation = true) :
    a.arg? "fields" = none ∧ a.arg? "references" = none := by
  simp only [declaresRelation, Bool.or_eq_true, not_or, hasArg, List.any_eq_true, not_exists,
    not_and] at h
  rw [arg?, arg?, List.find?_eq_none.mpr h.1, List.find?_eq_none.mpr h.2]
  exact ⟨rfl, rfl⟩

/-- Without lists there is nothing to resolve. -/
theorem resolveRelationLists_of_not_declares (r : Registry) {a : Attribute}
    (h : ¬a.declaresRelation = true) :
    a.resolveRelationLists r site = .error (a.fault "@relation"
      (if (site.target?.filter (r.isModel ·)).isSome then .missing "references" site.field
        else .notModel site.field)) := by
  unfold resolveRelationLists
  cases site.target?.filter (r.isModel ·) with
  | none => rfl
  | some target =>
    simp only [resolveRelationList, (arg?_of_not_declares h).2]
    rfl

/-- The name of the foreign key is not among the references. -/
theorem find?_map_renameRelationArgs (model : String) (b : Bool) (args : List Argument) :
    (renameRelationArgs ρ model type b args).find? (·.isNamed "map") =
      args.find? (·.isNamed "map") := by
  cases b with
  | true =>
    show (renameListArgs ρ model type args).find? _ = _
    rw [renameListArgs,
      Argument.find?_mapFirst_of_excludes (Argument.isNamed_excludes (by decide) _),
      Argument.find?_mapFirst_of_excludes (Argument.isNamed_excludes (by decide) _)]
  | false =>
    exact Argument.find?_mapFirst_of_excludes (Argument.namesRelation_excludes (by decide) _) args

theorem isEmpty_renameRelationArgs (model : String) (b : Bool) (args : List Argument) :
    (renameRelationArgs ρ model type b args).isEmpty = args.isEmpty := by
  cases b with
  | true =>
    show (renameListArgs ρ model type args).isEmpty = _
    rw [renameListArgs, Argument.isEmpty_mapFirst, Argument.isEmpty_mapFirst]
  | false => exact Argument.isEmpty_mapFirst _ _ args

theorem mapFirst_map_renameRelationArgs (model : String) (b : Bool) (f : Value → Value)
    (args : List Argument) :
    Argument.mapFirst (·.isNamed "map") f (renameRelationArgs ρ model type b args) =
      renameRelationArgs ρ model type b (Argument.mapFirst (·.isNamed "map") f args) := by
  have hlist := fun (x : String) (hx : "map" ≠ x) (g : Value → Value) (l : List Argument) =>
    Argument.mapFirst_comm (Argument.isNamed_excludes hx f) (Argument.isNamed_excludes hx.symm g) l
  cases b with
  | true =>
    show Argument.mapFirst _ f (renameListArgs ρ model type args) = renameListArgs ρ model type _
    rw [renameListArgs, hlist "fields" (by decide), hlist "references" (by decide)]
    rfl
  | false =>
    exact Argument.mapFirst_comm (Argument.isNamed_excludes_namesRelation (by decide) f)
      (Argument.namesRelation_excludes (by decide) _) args

theorem alike_renameForeignKey (model : String) (b : Bool) (a : Attribute) :
    Alike (fun x y => x.mapArgs (renameRelationArgs ρ model type b) = y ∧
        x.declaresRelation = a.declaresRelation)
      (a.renameForeignKey site)
      ((a.mapArgs (renameRelationArgs ρ model type b)).renameForeignKey site) := by
  unfold renameForeignKey
  rw [arg?_mapArgs (find?_map_renameRelationArgs model b)]
  cases a.arg? "map" with
  | none => exact ⟨rfl, rfl⟩
  | some v =>
    cases v with
    | string text =>
      refine ⟨?_, by simp [updateArg_eq]⟩
      simp only [updateArg_eq, mapArgs, mapFirst_map_renameRelationArgs]
    | _ => exact rfl

/-- A type that is resolved to no model declares no relations. -/
theorem alike_resolveRelationName (hρ : ρ.Faithful) (h : type.Resolved o site.type)
    (name : String) :
    Alike Eq ((o.registry n).resolveRelation (site.target?.getD "") name)
      (((o.rename ρ).registry n).resolveRelation (site.target?.getD "")
        (type.scope ρ.relation name)) := by
  have hne : (∀ i, site.target?.getD "" ≠ modelName i) →
      Alike Eq ((o.registry n).resolveRelation (site.target?.getD "") name)
        (((o.rename ρ).registry n).resolveRelation (site.target?.getD "")
          (type.scope ρ.relation name)) := by
    intro hne
    rw [Outline.resolveRelation_of_ne hne, Outline.resolveRelation_of_ne hne]
    exact rfl
  unfold FieldSite.target? at hne ⊢
  generalize site.type = t at h hne
  cases h with
  | model hu hm =>
    obtain ⟨m, hk, hn⟩ := getElem?_idxOf (f := ModelOutline.name) hm
    have hfound := Outline.alike_resolveRelation (n := n) hρ hk name
    rw [hn] at hfound
    exact hfound
  | enum hu hm he => exact hne fun i => (modelName_ne_enumName i _).symm
  | builtin hb =>
    refine hne fun i => ?_
    cases hi : type.reference? with
    | none => exact empty_ne_modelName i
    | some ident =>
      simp only [Option.map_some, Option.getD_some, hb ident hi]
      exact unsupported_ne_modelName i

theorem alike_resolveRelation (hρ : ρ.Faithful) (h : type.Resolved o site.type)
    (hk : o.models[k]? = some m) (hs : site.model = modelName k) (a : Attribute) :
    Alike Eq (a.resolveRelation (o.registry n) site)
      ((a.mapArgs (renameRelationArgs ρ m.name type a.declaresRelation)).resolveRelation
        ((o.rename ρ).registry n) site) := by
  unfold resolveRelation
  refine Alike.ite (by rw [mapArgs_args, isEmpty_renameRelationArgs]) (fun _ => rfl) fun _ => ?_
  refine (alike_renameForeignKey m.name a.declaresRelation a).bind ?_
  rintro b _ ⟨rfl, hb⟩
  rw [← hb]
  refine Alike.ite (by simp) (fun hd => ?_) fun hd => ?_
  · rw [hd]
    exact alike_resolveRelationLists hρ h hk hs b
  · simp only [hd, renameRelationArgs, Bool.false_eq_true, ↓reduceIte, relationName?_mapFirst]
    cases hn : b.relationName? with
    | none =>
      simp only [Option.map_none]
      rw [resolveRelationLists_of_not_declares _ hd,
        resolveRelationLists_of_not_declares _ (by simpa using hd)]
      simp only [Outline.isModel_rename]
      exact rfl
    | some name =>
      simp only [Option.map_some]
      refine Alike.locate ((alike_resolveRelationName hρ h name).bind ?_) _
      rintro new _ rfl
      show _ = _
      simp only [renameRelation, mapArgs, Argument.setFirst_eq_mapFirst,
        Argument.mapFirst_mapFirst (namesRelation_mapString (type.scope ρ.relation))]

theorem alike_resolveOnField (hρ : ρ.Faithful) (h : type.Resolved o site.type)
    (hk : o.models[k]? = some m) (hs : site.model = modelName k) (a : Attribute) :
    Alike Eq (a.resolveOnField (o.registry n) site)
      ((a.renameReferences ρ m.name type).resolveOnField ((o.rename ρ).registry n) site) := by
  unfold resolveOnField
  refine Alike.ite (by simp) (fun hd => ?_) fun hd => Alike.ite (by simp) (fun hr => ?_) fun hr => ?_
  · simp only [renameReferences, hd, ↓reduceIte]
    exact alike_resolveDefault hρ h a
  · rw [renameReferences_of_relation hr]
    exact alike_resolveRelation hρ h hk hs a
  · simp only [renameReferences, hd, hr]
    exact rfl

/-! ### Attributes of models -/

theorem alike_resolveFirst (hρ : ρ.Faithful) (hk : o.models[k]? = some m) (a : Attribute) :
    Alike Eq (a.resolveFirst (o.registry n) sign (modelName k))
      ((a.mapArgs (Argument.mapHead (.renameItems (ρ.field m.name)))).resolveFirst
        ((o.rename ρ).registry n) sign (modelName k)) := by
  unfold resolveFirst
  rw [mapArgs_args]
  cases a.args with
  | nil => exact rfl
  | cons first rest =>
    refine Alike.locate ((Value.alike_resolveFields hρ hk first.value).bind ?_) _
    rintro v _ rfl
    exact rfl

theorem alike_resolveKeyArg (hρ : ρ.Faithful) (hk : o.models[k]? = some m) (arg : Argument) :
    Alike Eq (resolveKeyArg (o.registry n) (modelName k) arg)
      (resolveKeyArg ((o.rename ρ).registry n) (modelName k)
        (arg.mapValue (.renameItems (ρ.field m.name)))) := by
  cases arg with
  | mk name value span =>
    cases value with
    | array items =>
      refine (Value.alike_resolveFields hρ hk (.array items)).bind ?_
      rintro v _ rfl
      exact rfl
    | _ => exact rfl

theorem alike_resolveOnModel (hρ : ρ.Faithful) (hk : o.models[k]? = some m) (number : Nat)
    (a : Attribute) :
    Alike Eq (a.resolveOnModel (o.registry n) (modelName k) number)
      ((a.renameLists ρ m.name).resolveOnModel ((o.rename ρ).registry n) (modelName k) number) := by
  unfold resolveOnModel
  refine Alike.ite (by simp) (fun hi => ?_) fun hi => Alike.ite (by simp) (fun hd => ?_) fun hd =>
    Alike.ite (by simp) (fun hu => ?_) fun hu => ?_
  · simp only [renameLists, hi, Bool.true_or, ↓reduceIte]
    refine (alike_resolveFirst hρ hk a).bind ?_
    rintro b _ rfl
    exact Alike.refl _
  · simp only [renameLists, hd, Bool.or_true, ↓reduceIte]
    exact alike_resolveFirst hρ hk a
  · simp only [renameLists, hi, hd, hu, Bool.or_self, ↓reduceIte]
    refine Alike.locate ((Alike.mapM_eq fun arg _ => alike_resolveKeyArg hρ hk arg).bind ?_) _
    rintro args _ rfl
    exact rfl
  · simp only [renameLists, hi, hd, hu, Bool.or_self]
    exact rfl

end Attribute

/-! ### Models -/

theorem Field.alike_resolve (hρ : ρ.Faithful) (hk : o.models[k]? = some m) (f : Field) :
    Alike Eq (f.resolve (o.registry n) (modelName k))
      ((f.renameReferences ρ m.name).resolve ((o.rename ρ).registry n) (modelName k)) := by
  refine (FieldType.alike_resolve hρ f.type).bind ?_
  rintro type _ ⟨rfl, htype⟩
  have hattributes : Alike Eq
      (f.attributes.mapM (·.resolveOnField (o.registry n) ⟨modelName k, f.name.name, type⟩))
      ((f.attributes.map (·.renameReferences ρ m.name f.type)).mapM
        (·.resolveOnField ((o.rename ρ).registry n) ⟨modelName k, f.name.name, type⟩)) :=
    Alike.mapM_eq fun a _ => Attribute.alike_resolveOnField hρ htype hk rfl a
  refine hattributes.bind ?_
  rintro attributes _ rfl
  exact rfl

theorem ModelMember.alike_resolveEach (hρ : ρ.Faithful) (hk : o.models[k]? = some m) :
    ∀ (members : List ModelMember) (number : Nat),
      Alike Eq (resolveEach (o.registry n) (modelName k) number members)
        (resolveEach ((o.rename ρ).registry n) (modelName k) number
          (members.map (·.renameReferences ρ m.name)))
  | [], _ => rfl
  | .field f :: rest, number => by
    refine (f.alike_resolve hρ hk).bind ?_
    rintro f _ rfl
    refine (alike_resolveEach hρ hk rest number).bind ?_
    rintro rest _ rfl
    exact rfl
  | .blockAttribute a :: rest, number => by
    refine (a.attr.alike_resolveOnModel hρ hk number).bind ?_
    rintro attr _ rfl
    simp only [Attribute.renameLists_is]
    refine (alike_resolveEach hρ hk rest _).bind ?_
    rintro rest _ rfl
    exact rfl
  | .comment c :: rest, number => by
    refine (alike_resolveEach hρ hk rest number).bind ?_
    rintro rest _ rfl
    exact rfl

theorem Model.alike_resolve (hρ : ρ.Faithful) (hk : o.models[k]? = some m) {model : Model}
    (hm : model.name.name = modelName k) :
    Alike Eq (model.resolve (o.registry n))
      ((model.renameReferences ρ m.name).resolve ((o.rename ρ).registry n)) := by
  have hmembers := ModelMember.alike_resolveEach (n := n) hρ hk model.members 0
  rw [← hm] at hmembers
  refine hmembers.bind ?_
  rintro members _ rfl
  exact rfl

theorem Declaration.alike_resolve (hρ : ρ.Faithful) {d d' : Declaration}
    (h : d.Renamed ρ o.modelNames d') :
    Alike Eq (d.resolve (o.registry n)) (d'.resolve ((o.rename ρ).registry n)) := by
  cases h with
  | @model m k model hk hm =>
    rw [Outline.modelNames, List.getElem?_map] at hk
    obtain ⟨m', hk', rfl⟩ := Option.map_eq_some_iff.mp hk
    refine (Model.alike_resolve hρ hk' hm).bind ?_
    rintro m _ rfl
    exact rfl
  | other hd =>
    cases d with
    | model m => cases hd
    | _ => exact rfl

/-- The second step ends the same for two schemas that differ by their references. -/
theorem Declaration.alike_resolveAll (hρ : ρ.Faithful) {ds ds' : List Declaration}
    (h : List.Forall₂ (Declaration.Renamed ρ o.modelNames) ds ds') :
    Alike Eq (ds.mapM (·.resolve (o.registry n))) (ds'.mapM (·.resolve ((o.rename ρ).registry n))) := by
  induction h with
  | nil => exact rfl
  | cons hd _ ih =>
    rw [List.mapM_cons, List.mapM_cons]
    refine (alike_resolve hρ hd).bind ?_
    rintro d _ rfl
    refine ih.bind ?_
    rintro ds _ rfl
    exact rfl

end Pseudonym

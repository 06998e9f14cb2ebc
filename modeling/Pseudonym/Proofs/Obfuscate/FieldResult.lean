/-
# What becomes of a field

Where both steps of an obfuscation succeed, a field becomes what can be said
without a registry: its environment variables are numbered, it is renamed as
the outline of the schema says, and it has neutral texts. The first step
renames what the field declares, the second one what it refers to; each text
that is no name is replaced in one of the two.
-/
import Pseudonym.Proofs.Obfuscate.Bindings
import Pseudonym.Proofs.Obfuscate.NewNames
import Pseudonym.Proofs.Obfuscate.Texts

namespace Pseudonym

variable {n : Numbering} {r r' : Registry} {o : Outline}

/-! ### Steps that succeed -/

section Steps

variable {α β ε σ : Type}

theorem locate_ok {x : Except Fault α} {line : Nat} {a : α} (h : Fault.locate line x = .ok a) :
    x = .ok a := by
  cases x with
  | error e => cases h
  | ok b => exact h

/-- A walk whose steps give what a function gives. -/
theorem mapM_ok {f : α → Except ε β} {g : α → β} : ∀ {l : List α} {bs : List β},
    (∀ a ∈ l, ∀ b, f a = .ok b → b = g a) → l.mapM f = .ok bs → bs = l.map g
  | [], _, _, h => by
    cases h
    rfl
  | a :: l, bs, hf, h => by
    rw [List.mapM_cons] at h
    obtain ⟨b, hb, h⟩ := bind_ok h
    obtain ⟨cs, hcs, h⟩ := bind_ok h
    cases h
    rw [List.map_cons, hf a List.mem_cons_self b hb,
      mapM_ok (fun c hc => hf c (List.mem_cons_of_mem a hc)) hcs]

/-- A walk that registers names and numbers environment variables: every item is met in a
registry that belongs to the state that the items before it lead to, and becomes what a function
makes of it once it is numbered. -/
theorem mapM_naming_ok {f : α → Naming β} {R : σ → Registry → Prop} {d : σ → α → σ}
    {k : Nat → α → α × Nat} {g : α → β} : ∀ {l : List α} {u : σ} {r r' : Registry} {bs : List β},
    (∀ before a after r b r', l = before ++ a :: after → R (before.foldl d u) r →
      f a r = .ok (b, r') → R (d (before.foldl d u) a) r' ∧ b = g (k r.envVars a).1 ∧
        r'.envVars = (k r.envVars a).2) →
    R u r → l.mapM f r = .ok (bs, r') →
    bs = (numberAlong k r.envVars l).1.map g ∧ r'.envVars = (numberAlong k r.envVars l).2
  | [], _, _, _, _, _, _, h => by
    cases h
    exact ⟨rfl, rfl⟩
  | a :: l, u, r, r', bs, hf, hr, h => by
    rw [List.mapM_cons, Naming.bind_apply] at h
    obtain ⟨⟨b, r₁⟩, hb, h⟩ := bind_ok h
    obtain ⟨⟨cs, r₂⟩, hcs, h⟩ := bind_ok h
    cases h
    obtain ⟨hr₁, hg, henv⟩ := hf [] a l r b r₁ rfl hr hb
    have ih := mapM_naming_ok (u := d u a) (k := k) (g := g)
      (fun before c after r d r' hl => hf (a :: before) c after r d r' (by rw [hl]; rfl)) hr₁ hcs
    rw [henv] at ih
    exact ⟨by rw [hg, ih.1]; rfl, ih.2⟩

/-- A walk that only numbers environment variables. -/
theorem mapM_numbering_ok {f : α → Naming β} {k : Nat → α → α × Nat} {g : α → β} {l : List α}
    {r r' : Registry} {bs : List β}
    (hf : ∀ a r b r', f a r = .ok (b, r') →
      b = g (k r.envVars a).1 ∧ r'.envVars = (k r.envVars a).2)
    (h : l.mapM f r = .ok (bs, r')) :
    bs = (numberAlong k r.envVars l).1.map g ∧ r'.envVars = (numberAlong k r.envVars l).2 :=
  mapM_naming_ok (R := fun (_ : Unit) _ => True) (d := fun u _ => u) (u := ())
    (fun _ a _ r b r' _ _ hb => ⟨trivial, hf a r b r' hb⟩) trivial h

end Steps

/-! ### Look-ups -/

namespace OfOutline

variable {model enum name new : String}

theorem resolveField_ok (hr : OfOutline n o r) (hmodel : model ∈ o.modelNames)
    (h : r.resolveField (modelName (o.modelNames.idxOf model)) name = .ok new) :
    new = o.newNames.field model name := by
  obtain ⟨env, rfl⟩ := hr
  obtain ⟨m, hm, -⟩ := Outline.model_of_mem hmodel
  rw [Registry.resolveField, Registry.resolve_eq_ok,
    Outline.found_field (o := { o with envVars := env }) hm] at h
  rw [Outline.newNames_field hm, orMarked, h]
  rfl

theorem resolveRelation_ok (hr : OfOutline n o r) (hmodel : model ∈ o.modelNames)
    (h : r.resolveRelation (modelName (o.modelNames.idxOf model)) name = .ok new) :
    new = o.newNames.relation model name := by
  obtain ⟨env, rfl⟩ := hr
  obtain ⟨m, hm, -⟩ := Outline.model_of_mem hmodel
  rw [Registry.resolveRelation, Registry.resolve_eq_ok,
    Outline.found_relation (o := { o with envVars := env }) hm] at h
  rw [Outline.newNames_relation hm, orMarked, h]
  rfl

theorem resolveValue_ok (hr : OfOutline n o r) (henum : enum ∈ o.enumNames)
    (h : r.resolveValue (enumName (o.enumNames.idxOf enum)) name = .ok new) :
    new = o.newNames.value enum name := by
  obtain ⟨env, rfl⟩ := hr
  obtain ⟨e, he, -⟩ := Outline.enum_of_mem henum
  rw [Registry.resolveValue, Registry.resolve_eq_ok,
    Outline.found_value (o := { o with envVars := env }) he] at h
  rw [Outline.newNames_value he, orMarked, h]
  rfl

end OfOutline

/-! ### Types -/

theorem FieldType.Resolved.eq_rename {type type' : FieldType} (h : type.Resolved o type') :
    type' = type.rename o.newNames.type := by
  cases h with
  | model hu hm =>
    rw [FieldType.rename, if_neg hu]
    exact congrArg _ (congrArg _ (Outline.newNames_type_of_model hm).symm)
  | enum hu hm he =>
    rw [FieldType.rename, if_neg hu]
    exact congrArg _ (congrArg _ (Outline.newNames_type_of_enum hm he).symm)
  | builtin hb =>
    cases type with
    | named ident => rw [FieldType.rename, if_pos (hb ident rfl)]
    | _ => rfl

/-! ### Lists of fields -/

section Lists

variable {sign model : String}

theorem Value.resolveItem_ok (hr : OfOutline n o r) (hmodel : model ∈ o.modelNames) {v w : Value}
    (h : v.resolveItem r sign (modelName (o.modelNames.idxOf model)) = .ok w) :
    w = v.renameItem (o.newNames.field model) := by
  cases v with
  | path segments =>
    match segments with
    | [name] =>
      obtain ⟨new, hnew, h⟩ := bind_ok h
      cases h
      rw [hr.resolveField_ok hmodel hnew]
      rfl
    | [] => cases h
    | _ :: _ :: _ => cases h
  | _ => cases h

theorem Value.resolveFields_ok (hr : OfOutline n o r) (hmodel : model ∈ o.modelNames) {v w : Value}
    (h : v.resolveFields r sign (modelName (o.modelNames.idxOf model)) = .ok w) :
    w = v.renameItems (o.newNames.field model) := by
  cases v with
  | array items =>
    obtain ⟨items', hitems, h⟩ := bind_ok h
    cases h
    rw [mapM_ok (fun v _ w => resolveItem_ok hr hmodel) hitems]
    rfl
  | _ => cases h

end Lists

/-! ### Default values -/

namespace FieldSite

variable {site : FieldSite} {type : FieldType}

/-- The texts around a field of this type, whose site this is. -/
def texts (site : FieldSite) (type : FieldType) : FieldTexts :=
  Texts.neutral.around site.model site.field type

theorem literalDefault_ok (htype : type.Resolved o site.type) {v w : Value}
    (hv : v.isLiteral = true) (h : site.literalDefault = .ok w) :
    w = v.retextItem (site.texts type) := by
  unfold literalDefault at h
  rw [htype.scalar?] at h
  rw [Value.retextItem_of_isLiteral hv]
  show w = (type.scalar?.bind placeholder?).getD v
  cases hp : type.scalar?.bind placeholder? with
  | none =>
    rw [hp] at h
    cases h
  | some value =>
    rw [hp] at h
    cases h
    rfl

/-- A value that is found in the enum of a field is found under the name of the field's type. -/
theorem resolveValue_target (hr : OfOutline n o r) (htype : type.Resolved o site.type)
    {enum name new : String} (he : site.target?.filter (r.isEnum ·) = some enum)
    (hnew : r.resolveValue enum name = .ok new) : new = type.scope o.newNames.value name := by
  obtain ⟨htarget, henum⟩ := Option.filter_eq_some_iff.mp he
  obtain ⟨env, rfl⟩ := id hr
  generalize hsite : site.type = type' at htype
  rw [target?, hsite] at htarget
  cases htype with
  | model hu hm =>
    cases htarget
    simp [Ident.rename] at henum
  | enum hu hm hname =>
    cases htarget
    exact hr.resolveValue_ok hname hnew
  | builtin hb =>
    obtain ⟨ident, hident, rfl⟩ := Option.map_eq_some_iff.mp htarget
    simp [hb ident hident] at henum

theorem constantDefault_ok (hr : OfOutline n o r) (htype : type.Resolved o site.type)
    {segments : List String} {w : Value} (h : site.constantDefault r segments = .ok w) :
    w = ((Value.path segments).renameItem (type.scope o.newNames.value)).retextItem
      (site.texts type) := by
  unfold constantDefault at h
  cases he : site.target?.filter (r.isEnum ·) with
  | none =>
    rw [he] at h
    cases h
  | some enum =>
    rw [he] at h
    match segments with
    | [] => cases h
    | _ :: _ :: _ => cases h
    | [name] =>
      obtain ⟨new, hnew, hw⟩ := bind_ok h
      cases hw
      rw [resolveValue_target hr htype he hnew]
      rfl

theorem itemDefault_ok (hr : OfOutline n o r) (htype : type.Resolved o site.type) {v w : Value}
    (h : site.itemDefault r v = .ok w) :
    w = (v.renameItem (type.scope o.newNames.value)).retextItem (site.texts type) := by
  cases v with
  | path segments => exact constantDefault_ok hr htype h
  | call name args =>
    cases h
    show site.callDefault name args = _
    rw [callDefault, htype.scalar?]
    rfl
  | array items => cases h
  | string text => exact literalDefault_ok (v := .string text) htype rfl h
  | int number => exact literalDefault_ok (v := .int number) htype rfl h
  | number digits => exact literalDefault_ok (v := .number digits) htype rfl h
  | boolean truth => exact literalDefault_ok (v := .boolean truth) htype rfl h

theorem default_ok (hr : OfOutline n o r) (htype : type.Resolved o site.type) {v w : Value}
    (h : site.default r v = .ok w) :
    w = (v.renameDefault (type.scope o.newNames.value)).retextDefault (site.texts type) := by
  cases hv : v.array? with
  | some items =>
    obtain rfl := Value.eq_array_of_array? hv
    obtain ⟨items', hitems, h⟩ := bind_ok h
    cases h
    rw [mapM_ok (fun v _ w => itemDefault_ok hr htype) hitems]
    simp only [Value.renameDefault, Value.retextDefault, List.map_map, Function.comp_def]
  | none =>
    rw [default_of_array?_none r hv] at h
    rw [itemDefault_ok hr htype h, Value.renameDefault_of_array?_none hv,
      Value.retextDefault_of_array?_none (Value.array?_renameItem hv)]

end FieldSite

/-! ### Attributes of fields -/

namespace Attribute

variable {ms : List ModelOutline} {es : List EnumOutline} {m full : ModelOutline} {ρ : Renaming}
  {site : FieldSite} {type : FieldType} {model field : String} {a b c : Attribute}

/-- Renames the unique key of a field. -/
def rekey (f : String → String) (a : Attribute) : Attribute :=
  if a.is "unique" then
    a.mapArgs (.map fun arg => if arg.isNamed "map" then arg.mapValue (.mapString f) else arg)
  else a

theorem find?_of_relationName?_none (h : a.relationName? = none) :
    a.args.find? namesRelation = none := by
  cases hfind : a.args.find? namesRelation with
  | none => rfl
  | some arg =>
    have hnames : namesRelation arg = true := List.find?_some hfind
    have hstring := (Bool.and_eq_true_iff.mp hnames).2
    rw [relationName?, hfind] at h
    rw [show arg.value.string? = none from h] at hstring
    cases hstring

/-- A relation that has a name gets the new one where the old one stands. -/
theorem renameRelation_eq {name new : String} (h : a.relationName? = some name) {f : String → String}
    (hnew : new = f name) :
    a.renameRelation new = a.mapArgs (Argument.mapFirst namesRelation (.mapString f)) := by
  obtain ⟨arg, harg, hname⟩ := Option.bind_eq_some_iff.mp h
  rw [renameRelation, Argument.setFirst_eq_mapFirst]
  refine congrArg (Attribute.mk a.name · a.span) (Argument.mapFirst_congr_found fun found hfound => ?_)
  rw [harg] at hfound
  cases hfound
  cases hv : arg.value with
  | string text =>
    rw [hv] at hname
    cases hname
    rw [hnew]
    rfl
  | _ =>
    rw [hv] at hname
    cases hname

theorem renameKey_ok {arg arg' : Argument} (h : renameKey model field arg = .ok arg') :
    arg' = if arg.isNamed "map" then arg.mapValue (.mapString (uniqueKeyName model field)) else arg := by
  unfold renameKey at h
  cases hname : arg.name with
  | none =>
    rw [hname] at h
    cases h
  | some name =>
    have hmap : arg.isNamed "map" = (name.name == "map") := by simp [Argument.isNamed, hname]
    rw [hname] at h
    rw [hmap]
    dsimp only at h
    by_cases hm : (name.name == "map") = true
    · rw [if_pos hm] at h ⊢
      cases hv : arg.value with
      | string old =>
        rw [hv] at h
        cases h
        rw [Argument.mapValue, hv, hname]
        rfl
      | _ =>
        rw [hv] at h
        cases h
    · rw [if_neg hm] at h ⊢
      cases h
      rfl

theorem declareUnique_ok (hu : a.is "unique" = true) (h : a.declareUnique model field = .ok b) :
    b = a.rekey (uniqueKeyName model field) := by
  unfold declareUnique at h
  rw [rekey, if_pos hu]
  cases hargs : a.args.mapM (renameKey model field) with
  | error defect =>
    rw [hargs] at h
    cases h
  | ok args =>
    rw [hargs] at h
    cases h
    rw [mapM_ok (fun arg _ arg' => renameKey_ok) hargs]
    rfl

/-- What becomes of a relation when it is declared: its name, if it declares one, is the next of
the model's relations. -/
theorem declareRelation_ok (hm : OfModel n ms es m r) (hr : a.is "relation" = true)
    (hfresh : ∀ x ∈ a.declaredRelation?.toList, x ∉ m.relations)
    (hfull : (m.addRelations a.declaredRelation?.toList).Within full)
    (hρ : ∀ x ∈ full.relations, ρ.relation model x = full.newRelation ms.length x)
    (h : a.declareRelation (modelName ms.length) r = .ok (b, r')) :
    b = a.renameDeclared ρ model ∧ r'.envVars = r.envVars := by
  rw [declareRelation] at h
  rw [renameDeclared, hr, Bool.true_and]
  by_cases hd : a.declaresRelation = true
  · rw [if_pos hd] at h ⊢
    cases hname : a.relationName? with
    | none =>
      rw [hname] at h
      rw [mapArgs, Argument.mapFirst_of_find?_none (find?_of_relationName?_none hname)]
      cases h
      exact ⟨rfl, rfl⟩
    | some name =>
      have hdecl : a.declaredRelation? = some name := by simp [declaredRelation?, hr, hd, hname]
      rw [hdecl] at hfresh hfull
      have hx : name ∉ m.relations := hfresh name (List.mem_singleton_self name)
      rw [hname] at h
      obtain ⟨env, rfl⟩ := hm
      dsimp only at h
      rw [Naming.bind_apply, Naming.register, Outline.registerRelation_last, if_neg hx] at h
      cases h
      refine ⟨renameRelation_eq hname ?_, rfl⟩
      rw [hρ _ (hfull.relations.subset (by simp [ModelOutline.addRelations])), ModelOutline.newRelation,
        idxOf_added hfull.relations hx]
  · rw [if_neg hd] at h ⊢
    cases h
    exact ⟨rfl, rfl⟩

/-- What becomes of an attribute of a field when it is declared, once it has its numbers. -/
theorem declareOnField_ok (hm : OfModel n ms es m r)
    (hfull : (m.addRelations a.declaredRelation?.toList).Within full)
    (hρ : ∀ x ∈ full.relations, ρ.relation model x = full.newRelation ms.length x)
    (h : a.declareOnField (modelName ms.length) field r = .ok (b, r')) :
    b = ((a.numberEnv r.envVars).1.renameDeclared ρ model).rekey
        (uniqueKeyName (modelName ms.length) field) ∧
      r'.envVars = (a.numberEnv r.envVars).2 := by
  obtain ⟨⟨hfresh, -⟩, -⟩ := (meets_declareOnField a hm hfull).of_ok h
  rw [← declaredRelation?_numberEnv r.envVars a] at hfresh hfull
  rw [declareOnField, Naming.numberEnv_bind] at h
  have hm' := hm.numberEnv (a.numberEnv r.envVars).2
  generalize (a.numberEnv r.envVars).1 = a at h hfresh hfull ⊢
  by_cases hr : a.is "relation" = true
  · have hu : a.is "unique" = false := is_of_ne hr (by decide)
    rw [if_pos hr] at h
    rw [rekey, renameDeclared_is, hu]
    exact declareRelation_ok hm' hr hfresh.2 hfull hρ h
  · have hdeclared : a.renameDeclared ρ model = a := renameDeclared_of_not_relation hr
    rw [if_neg hr] at h
    rw [hdeclared]
    by_cases hu : a.is "unique" = true
    · rw [if_pos hu, Naming.ofExcept_apply] at h
      obtain ⟨b', hb, h⟩ := bind_ok h
      cases h
      exact ⟨declareUnique_ok hu hb, rfl⟩
    · rw [if_neg hu] at h
      cases h
      rw [rekey, if_neg hu]
      exact ⟨rfl, rfl⟩

theorem resolveDefault_ok (hr : OfOutline n o r) (htype : type.Resolved o site.type)
    (h : a.resolveDefault r site = .ok b) :
    b = a.mapArgs (Argument.mapHead fun v =>
      (v.renameDefault (type.scope o.newNames.value)).retextDefault (site.texts type)) := by
  unfold resolveDefault at h
  rw [mapArgs]
  cases hargs : a.args with
  | nil =>
    rw [hargs] at h
    cases h
  | cons first rest =>
    rw [hargs] at h
    obtain ⟨w, hw, h⟩ := bind_ok (locate_ok h)
    cases h
    rw [FieldSite.default_ok hr htype hw]
    rfl

theorem renameForeignKey_ok (type : FieldType) (h : a.renameForeignKey site = .ok b) :
    b = a.mapArgs (Argument.mapFirst (·.isNamed "map") (.mapString fun _ =>
      (site.texts type).foreignKey)) := by
  unfold renameForeignKey at h
  cases hmap : a.arg? "map" with
  | none =>
    rw [hmap] at h
    have hnone : a.args.find? (·.isNamed "map") = none := Option.map_eq_none_iff.mp hmap
    rw [mapArgs, Argument.mapFirst_of_find?_none hnone]
    cases h
    rfl
  | some value =>
    rw [hmap] at h
    obtain ⟨arg, harg, rfl⟩ := Option.map_eq_some_iff.mp hmap
    cases hv : arg.value with
    | string text =>
      rw [hv] at h
      cases h
      rw [updateArg_eq]
      refine congrArg (Attribute.mk a.name · a.span)
        (Argument.mapFirst_congr_found fun found hfound => ?_)
      rw [harg] at hfound
      cases hfound
      rw [hv]
      rfl
    | _ =>
      rw [hv] at h
      cases h

theorem resolveRelationList_ok (hr : OfOutline n o r) (hmodel : model ∈ o.modelNames) {x : String}
    (h : a.resolveRelationList r site x (modelName (o.modelNames.idxOf model)) = .ok b) :
    b = a.mapArgs (Argument.mapFirst (·.isNamed x) (.renameItems (o.newNames.field model))) := by
  unfold resolveRelationList at h
  cases harg : a.arg? x with
  | none =>
    rw [harg] at h
    cases h
  | some value =>
    rw [harg] at h
    obtain ⟨w, hw, h⟩ := bind_ok (locate_ok h)
    cases h
    obtain ⟨arg, hfind, rfl⟩ := Option.map_eq_some_iff.mp harg
    rw [updateArg_eq, Value.resolveFields_ok hr hmodel hw]
    refine congrArg (Attribute.mk a.name · a.span)
      (Argument.mapFirst_congr_found fun found hfound => ?_)
    rw [hfind] at hfound
    cases hfound
    rfl

theorem resolveRelationLists_ok (hr : OfOutline n o r) (hmodel : model ∈ o.modelNames)
    (hsite : site.model = modelName (o.modelNames.idxOf model))
    (htype : type.Resolved o site.type) (h : a.resolveRelationLists r site = .ok b) :
    b = a.mapArgs (renameListArgs o.newNames model type) := by
  unfold resolveRelationLists at h
  cases ht : site.target?.filter (r.isModel ·) with
  | none =>
    rw [ht] at h
    cases h
  | some target =>
    rw [ht, hsite] at h
    obtain ⟨c, hreferences, hfields⟩ := bind_ok h
    -- only a type that names a model has a target
    obtain ⟨htarget, hisModel⟩ := Option.filter_eq_some_iff.mp ht
    generalize hsitetype : site.type = type' at htype
    rw [FieldSite.target?, hsitetype] at htarget
    cases htype with
    | model hu hm =>
      cases htarget
      rw [resolveRelationList_ok hr hmodel hfields, resolveRelationList_ok hr hm hreferences]
      rfl
    | enum hu hm he =>
      cases htarget
      obtain ⟨env, rfl⟩ := hr
      simp [Ident.rename] at hisModel
    | builtin hb =>
      obtain ⟨ident, hident, rfl⟩ := Option.map_eq_some_iff.mp htarget
      obtain ⟨env, rfl⟩ := hr
      simp [hb ident hident] at hisModel

theorem resolveBare_ok (hr : OfOutline n o r) (htype : type.Resolved o site.type) {name new : String}
    (h : r.resolveRelation (site.target?.getD "") name = .ok new) :
    new = type.scope o.newNames.relation name := by
  have hne : ∀ {target : String}, (∀ i, target ≠ modelName i) →
      r.resolveRelation target name ≠ .ok new := by
    intro target htarget hok
    obtain ⟨env, rfl⟩ := hr
    rw [Outline.resolveRelation_of_ne htarget] at hok
    cases hok
  unfold FieldSite.target? at h
  generalize site.type = type' at h htype
  cases htype with
  | model hu hm => exact hr.resolveRelation_ok hm h
  | enum hu hm he => exact absurd h (hne fun i => (modelName_ne_enumName i _).symm)
  | builtin hb =>
    obtain hnone | hunsupported := FieldType.target_of_builtin hb
    · rw [hnone] at h
      exact absurd h (hne empty_ne_modelName)
    · rw [hunsupported] at h
      exact absurd h (hne unsupported_ne_modelName)

theorem resolveRelation_ok (hr : OfOutline n o r) (hmodel : model ∈ o.modelNames)
    (hsite : site.model = modelName (o.modelNames.idxOf model))
    (htype : type.Resolved o site.type) (h : a.resolveRelation r site = .ok b) :
    b = (a.mapArgs (renameRelationArgs o.newNames model type a.declaresRelation)).mapArgs
      (Argument.mapFirst (·.isNamed "map") (.mapString fun _ => (site.texts type).foreignKey)) := by
  unfold resolveRelation at h
  by_cases hargs : a.args.isEmpty = true
  · rw [if_pos hargs] at h
    cases h
  rw [if_neg hargs] at h
  obtain ⟨c, hc, h⟩ := bind_ok h
  have hkey := renameForeignKey_ok type hc
  have hd : c.declaresRelation = a.declaresRelation := by rw [hkey, declaresRelation_mapFirst]
  -- the foreign key does not stand in the way of the references
  have hcomm : (a.mapArgs (renameRelationArgs o.newNames model type a.declaresRelation)).mapArgs
      (Argument.mapFirst (·.isNamed "map") (.mapString fun _ => (site.texts type).foreignKey)) =
        c.mapArgs (renameRelationArgs o.newNames model type c.declaresRelation) := by
    rw [hd, hkey]
    simp only [mapArgs, mapFirst_map_renameRelationArgs]
  rw [hcomm]
  by_cases hdeclares : c.declaresRelation = true
  · rw [if_pos hdeclares] at h
    rw [hdeclares]
    exact resolveRelationLists_ok hr hmodel hsite htype h
  · rw [if_neg hdeclares] at h
    rw [Bool.not_eq_true] at hdeclares
    rw [hdeclares]
    cases hname : c.relationName? with
    | none =>
      rw [hname] at h
      dsimp only at h
      rw [resolveRelationLists_of_not_declares r (by simp [hdeclares])] at h
      cases h
    | some name =>
      rw [hname] at h
      obtain ⟨new, hnew, h⟩ := bind_ok (locate_ok h)
      cases h
      exact renameRelation_eq hname (resolveBare_ok hr htype hnew)

/-- What becomes of an attribute of a field when its references are resolved. Unique keys have no
references. -/
theorem resolveOnField_ok (hr : OfOutline n o r) (hmodel : model ∈ o.modelNames)
    (hsite : site.model = modelName (o.modelNames.idxOf model))
    (htype : type.Resolved o site.type) (h : a.resolveOnField r site = .ok b) :
    b = if a.is "unique" then a
      else (a.renameReferences o.newNames model type).retextOnField (site.texts type) := by
  unfold resolveOnField at h
  by_cases hdefault : a.is "default" = true
  · have hu : a.is "unique" = false := is_of_ne hdefault (by decide)
    have hrename : a.renameReferences o.newNames model type =
        a.mapArgs (Argument.mapHead (.renameDefault (type.scope o.newNames.value))) := by
      rw [renameReferences, if_pos hdefault]
    rw [if_pos hdefault] at h
    rw [resolveDefault_ok hr htype h, hu, hrename, retextOnField, mapArgs_is, if_pos hdefault]
    simp only [Bool.false_eq_true, ↓reduceIte, mapArgs]
    cases a.args <;> rfl
  rw [if_neg hdefault] at h
  by_cases hrelation : a.is "relation" = true
  · have hu : a.is "unique" = false := is_of_ne hrelation (by decide)
    rw [if_pos hrelation] at h
    rw [resolveRelation_ok hr hmodel hsite htype h, hu, renameReferences_of_relation hrelation,
      retextOnField, mapArgs_is, mapArgs_is, if_neg hdefault, if_pos hrelation]
    rfl
  · rw [if_neg hrelation] at h
    cases h
    by_cases hu : a.is "unique" = true
    · rw [if_pos hu]
    · have hrename : a.renameReferences o.newNames model type = a := by
        simp [renameReferences, hdefault, hrelation]
      rw [if_neg hu, hrename]
      simp [retextOnField, hdefault, hrelation, hu]

/-- Both steps at an attribute of a field. -/
theorem resolve_declare_eq (ρ : Renaming) (model : String) (type : FieldType) (w : FieldTexts)
    (a : Attribute) :
    (if ((a.renameDeclared ρ model).rekey w.uniqueKey).is "unique" then
        (a.renameDeclared ρ model).rekey w.uniqueKey
      else (((a.renameDeclared ρ model).rekey w.uniqueKey).renameReferences ρ model type).retextOnField
        w) =
      ((a.renameDeclared ρ model).renameReferences ρ model type).retextOnField w := by
  generalize a.renameDeclared ρ model = a
  have his : (a.rekey w.uniqueKey).is "unique" = a.is "unique" := by
    unfold rekey
    split <;> rfl
  rw [his]
  by_cases hu : a.is "unique" = true
  · have hnot : a.is "default" = false ∧ a.is "relation" = false :=
      ⟨is_of_ne hu (by decide), is_of_ne hu (by decide)⟩
    rw [if_pos hu, renameReferences_of_unique hu, rekey, if_pos hu, retextOnField, hnot.1, hnot.2,
      if_pos hu]
    rfl
  · rw [if_neg hu, rekey, if_neg hu]

end Attribute

/-! ### Fields -/

section Fields

variable {ms : List ModelOutline} {es : List EnumOutline} {m full : ModelOutline} {ρ : Renaming}
  {model : String}

/-- A field of a model, whose new name is `new`, when it is declared. -/
def Field.declared (ρ : Renaming) (model new : String) (f : Field) : Field :=
  { f with
    name := f.name.rename (ρ.field model f.name.name)
    attributes := f.attributes.map fun a => (a.renameDeclared ρ model).rekey
      (Attribute.uniqueKeyName new (ρ.field model f.name.name))
    comment := f.comment.map (·.cleared) }

theorem Field.declare_ok {f g : Field} (hm : OfModel n ms es m r)
    (hfull : (m.addMember (.field f)).Within full)
    (hfield : ∀ x ∈ full.keys, ρ.field model x = full.newKey x)
    (hrelation : ∀ x ∈ full.relations, ρ.relation model x = full.newRelation ms.length x)
    (h : f.declare (modelName ms.length) r = .ok (g, r')) :
    g = (f.numberEnv r.envVars).1.declared ρ model (modelName ms.length) ∧
      r'.envVars = (f.numberEnv r.envVars).2 := by
  obtain ⟨⟨hname, -⟩, -⟩ := (f.meets_declare hm hfull).of_ok h
  obtain ⟨env, rfl⟩ := hm
  rw [declare, Naming.bind_apply, Naming.register, Outline.registerField_last, if_neg hname] at h
  obtain ⟨⟨new, r₀⟩, hregister, h⟩ := bind_ok h
  obtain ⟨⟨attributes, r₁⟩, hattributes, h⟩ := bind_ok h
  cases locate_ok hregister
  cases h
  have hkeys : (m.addKey f.name.name).keys = m.keys ++ [f.name.name] := by
    rw [ModelOutline.addKey, if_neg hname]
  have hwithin : (m.addKey f.name.name).Within full :=
    (ModelOutline.within_addRelations _ _).trans hfull
  have hnew : fieldName m.keys.length = ρ.field model f.name.name := by
    rw [hfield _ (hwithin.keys.subset (by simp [hkeys])), ModelOutline.newKey,
      idxOf_added (hkeys ▸ hwithin.keys) hname]
  have hfull' : (f.attributes.foldl (fun m a => m.addRelations a.declaredRelation?.toList)
      (m.addKey f.name.name)).Within full := by
    rw [ModelOutline.addRelations_foldl]
    exact hfull
  obtain ⟨hlist, henv⟩ := mapM_naming_ok (R := OfModel n ms es) (k := Attribute.numberEnv)
    (g := fun a => (a.renameDeclared ρ model).rekey
      (Attribute.uniqueKeyName (modelName ms.length) (fieldName m.keys.length)))
    (fun before a after r b r' hl hr hb => by
      have hprefix := grows_of_foldl .refl .trans (fun m _ => m.within_addRelations _) hl hfull'
      exact ⟨((Attribute.meets_declareOnField a hr hprefix).of_ok hb).2.2,
        Attribute.declareOnField_ok hr hprefix hrelation hb⟩)
    ⟨env, rfl⟩ hattributes
  refine ⟨?_, henv⟩
  rw [hlist, hnew]
  rfl

theorem Field.resolve_ok {f g : Field} (hr : OfOutline n o r) (hmodel : model ∈ o.modelNames)
    (h : f.resolve r (modelName (o.modelNames.idxOf model)) = .ok g) :
    g = { f with
      type := f.type.rename o.newNames.type
      attributes := f.attributes.map fun a =>
        if a.is "unique" then a
        else (a.renameReferences o.newNames model f.type).retextOnField
          (Texts.neutral.around (modelName (o.modelNames.idxOf model)) f.name.name f.type) } := by
  obtain ⟨type, htype, h⟩ := bind_ok h
  obtain ⟨attributes, hattributes, h⟩ := bind_ok h
  cases h
  have hresolved := ((f.type.meets_resolve hr).of_ok htype).2
  rw [mapM_ok (fun a _ b => Attribute.resolveOnField_ok hr hmodel rfl hresolved) hattributes,
    hresolved.eq_rename]
  rfl

/-- Both steps at a field. -/
theorem Field.resolve_declared_ok {f g : Field} (hr : OfOutline n o r) (hmodel : model ∈ o.modelNames)
    (h : (f.declared o.newNames model (modelName (o.modelNames.idxOf model))).resolve r
      (modelName (o.modelNames.idxOf model)) = .ok g) :
    g = ((f.renameDeclared o.newNames model).renameReferences o.newNames model).retext .neutral
      (modelName (o.modelNames.idxOf model)) := by
  rw [resolve_ok hr hmodel h]
  have ha := Attribute.resolve_declare_eq o.newNames model f.type
    (Texts.neutral.around (modelName (o.modelNames.idxOf model))
      (o.newNames.field model f.name.name) f.type)
  simp only [retext, renameReferences, renameDeclared, declared, List.map_map, Function.comp_def,
    Texts.around_rename, Ident.rename]
  congr 1
  exact List.map_congr_left fun a _ => ha a

end Fields

end Pseudonym

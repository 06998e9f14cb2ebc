/-
# Declaring renamed schemas

The first step of an obfuscation, run on a schema and on the schema under
other names, registers the same new names in both. What is left of the
renaming afterwards are the references: each declared block of the second run
is that of the first with its references renamed.
-/
import Pseudonym.Proofs.Obfuscate.RenamedOutline

namespace Pseudonym

variable {ρ : Renaming} {n : Numbering} {ms : List ModelOutline} {es : List EnumOutline}
  {model : String} {type : FieldType}

/-! ### Attributes of fields -/

theorem Argument.mapFirst_of_find?_none {p : Argument → Bool} {f : Value → Value} :
    ∀ {args : List Argument}, args.find? p = none → mapFirst p f args = args
  | [], _ => rfl
  | a :: rest, h => by
    rw [List.find?_cons] at h
    cases hp : p a with
    | true => simp [hp] at h
    | false =>
      simp only [hp] at h
      simp [mapFirst, hp, mapFirst_of_find?_none h]

theorem Value.string?_mapString (f : String → String) (v : Value) :
    (v.mapString f).string? = v.string?.map f := by
  cases v <;> rfl

theorem Attribute.namesRelation_mapString (f : String → String) (a : Argument)
    (h : namesRelation a = true) : namesRelation (a.mapValue (.mapString f)) = true := by
  simpa [namesRelation, Value.string?_mapString] using h

namespace Attribute

/-- The declared relation is renamed, the others are not. -/
theorem relationName?_mapFirst (f : String → String) (a : Attribute) :
    (a.mapArgs (Argument.mapFirst namesRelation (.mapString f))).relationName? =
      a.relationName?.map f := by
  simp only [relationName?, mapArgs_args,
    Argument.find?_mapFirst (namesRelation_mapString f), Option.bind_map, Option.map_bind]
  congr 1
  funext arg
  simp [Value.string?_mapString]

@[simp] theorem declaresRelation_mapFirst (p : Argument → Bool) (f : Value → Value) (a : Attribute) :
    (a.mapArgs (Argument.mapFirst p f)).declaresRelation = a.declaresRelation := by
  simp [declaresRelation, hasArg]

theorem renameReferences_of_relation {a : Attribute} (hr : a.is "relation" = true) :
    a.renameReferences ρ model type =
      a.mapArgs (renameRelationArgs ρ model type a.declaresRelation) := by
  have hn : a.is "default" = false := is_of_ne hr (by decide)
  simp only [renameReferences, hn, hr, ↓reduceIte, Bool.false_eq_true]

theorem renameReferences_of_declares {a : Attribute} (hr : a.is "relation" = true)
    (hd : a.declaresRelation = true) :
    a.renameReferences ρ model type = a.mapArgs (renameListArgs ρ model type) := by
  rw [renameReferences_of_relation hr, hd]
  rfl

/-- Renaming a relation and then the lists beside it is renaming the lists first. -/
theorem renameListArgs_mapFirst (f : Value → Value) (args : List Argument) :
    Argument.mapFirst namesRelation f (renameListArgs ρ model type args) =
      renameListArgs ρ model type (Argument.mapFirst namesRelation f args) := by
  have h1 := fun (x : String) (hx : x ≠ "name") (g : Value → Value) (l : List Argument) =>
    Argument.mapFirst_comm (Argument.namesRelation_excludes hx f)
      (Argument.isNamed_excludes_namesRelation hx g) l
  rw [renameListArgs, h1 "fields" (by decide), h1 "references" (by decide)]
  rfl

theorem find?_renameListArgs (args : List Argument) :
    (renameListArgs ρ model type args).find? namesRelation = args.find? namesRelation := by
  rw [renameListArgs,
    Argument.find?_mapFirst_of_excludes (Argument.isNamed_excludes_namesRelation (by decide) _),
    Argument.find?_mapFirst_of_excludes (Argument.isNamed_excludes_namesRelation (by decide) _)]

@[simp] theorem any_isNamed_renameRelationArgs (b : Bool) (x : String) (args : List Argument) :
    (renameRelationArgs ρ model type b args).any (·.isNamed x) = args.any (·.isNamed x) := by
  cases b <;> simp [renameRelationArgs, renameListArgs]

@[simp] theorem declaresRelation_renameRelationArgs (b : Bool) (a : Attribute) :
    (a.mapArgs (renameRelationArgs ρ model type b)).declaresRelation = a.declaresRelation := by
  simp [declaresRelation, hasArg]

theorem follows_declareRelation (hρ : ρ.Faithful) {a : Attribute} (hr : a.is "relation" = true) :
    Follows (InModel ρ n ms es model) (fun a b => a.renameReferences ρ model type = b)
      (a.declareRelation (modelName ms.length))
      (((a.renameDeclared ρ model).renameReferences ρ model type).declareRelation
        (modelName ms.length)) := by
  by_cases hd : a.declaresRelation = true
  · have hD : a.renameDeclared ρ model =
        a.mapArgs (Argument.mapFirst namesRelation (.mapString (ρ.relation model))) := by
      simp [renameDeclared, hr, hd]
    have hR : a.renameReferences ρ model type = a.mapArgs (renameListArgs ρ model type) :=
      renameReferences_of_declares hr hd
    rw [hD, renameReferences_of_declares (by simpa using hr) (by simpa using hd)]
    unfold declareRelation
    rw [if_pos hd, if_pos (by simpa [declaresRelation, hasArg, renameListArgs] using hd)]
    have hname : ((a.mapArgs (Argument.mapFirst namesRelation
          (.mapString (ρ.relation model)))).mapArgs (renameListArgs ρ model type)).relationName? =
        a.relationName?.map (ρ.relation model) := by
      rw [← relationName?_mapFirst]
      simp only [relationName?, mapArgs_args, find?_renameListArgs]
    rw [hname]
    cases hn : a.relationName? with
    | none =>
      refine Follows.pure ?_
      have hnone : a.args.find? namesRelation = none := by
        cases hf : a.args.find? namesRelation with
        | none => rfl
        | some arg =>
          have hs := List.find?_some hf
          simp only [relationName?, hf, Option.bind_some] at hn
          simp [namesRelation, hn] at hs
      rw [hR]
      simp [mapArgs, Argument.mapFirst_of_find?_none hnone]
    | some name =>
      refine (InModel.registerRelation hρ _ model name).bind fun new new' hnew => ?_
      subst hnew
      refine Follows.pure ?_
      -- the new name covers the renamed one, and the lists are out of its way
      have hb : (a.renameRelation new).declaresRelation = true := by
        rw [← hd]
        simp [renameRelation, declaresRelation, hasArg, Argument.setFirst_eq_mapFirst]
      rw [renameReferences_of_declares (by simpa [renameRelation, is] using hr) hb]
      simp only [renameRelation, mapArgs, Argument.setFirst_eq_mapFirst, renameListArgs_mapFirst,
        Argument.mapFirst_mapFirst (namesRelation_mapString (ρ.relation model))]
  · have hD : a.renameDeclared ρ model = a := by simp [renameDeclared, hd]
    have hd' : ¬(a.renameReferences ρ model type).declaresRelation = true := by
      rwa [renameReferences_of_relation hr, declaresRelation_renameRelationArgs]
    rw [hD]
    unfold declareRelation
    rw [if_neg hd, if_neg hd']
    exact Follows.pure rfl

@[simp] theorem renameDeclared_is (a : Attribute) (x : String) :
    (a.renameDeclared ρ model).is x = a.is x := by
  unfold renameDeclared
  split <;> rfl

@[simp] theorem renameReferences_is (a : Attribute) (x : String) :
    (a.renameReferences ρ model type).is x = a.is x := by
  unfold renameReferences
  split
  · rfl
  · split <;> rfl

/-- Of the attributes of a field, only default values and relations refer to anything. -/
theorem renameReferences_of_unique {a : Attribute} (h : a.is "unique" = true) :
    a.renameReferences ρ model type = a := by
  simp only [is, beq_iff_eq] at h
  simp [renameReferences, is, h]

theorem renameDeclared_of_not_relation {a : Attribute} (h : ¬a.is "relation" = true) :
    a.renameDeclared ρ model = a := by
  simp [renameDeclared, h]

theorem declareUnique_name {m f : String} {a b : Attribute} (h : a.declareUnique m f = .ok b) :
    b.name = a.name := by
  unfold declareUnique at h
  split at h
  · cases h
    rfl
  · cases h

/-- A change that numbering does not see is still there after it. -/
theorem follows_numberEnv {R : Registry → Registry → Prop} (hR : CountsEnv R) {a : Attribute}
    {h : Attribute → Attribute}
    (hh : ∀ k, (h a).numberEnv k = (h (a.numberEnv k).1, (a.numberEnv k).2)) :
    Follows R (fun a b => b = h a) (.numberEnv (a.numberEnv ·)) (.numberEnv ((h a).numberEnv ·)) := by
  refine Follows.numberEnv hR fun k => ?_
  rw [hh]
  exact ⟨rfl, rfl⟩

theorem follows_declareOnField (hρ : ρ.Faithful) (field : String) (a : Attribute) :
    Follows (InModel ρ n ms es model) (fun a b => a.renameReferences ρ model type = b)
      (a.declareOnField (modelName ms.length) field)
      (((a.renameDeclared ρ model).renameReferences ρ model type).declareOnField
        (modelName ms.length) field) := by
  refine (follows_numberEnv (InModel.countsEnv model) (h := fun a =>
    (a.renameDeclared ρ model).renameReferences ρ model type) fun k => ?_).bind ?_
  · rw [numberEnv_renameReferences, numberEnv_renameDeclared]
  rintro a _ rfl
  simp only [renameReferences_is, renameDeclared_is]
  refine Follows.ite Iff.rfl (fun h => follows_declareRelation hρ h) fun h => ?_
  rw [renameDeclared_of_not_relation h]
  refine Follows.ite Iff.rfl (fun hu => Follows.ofExcept ?_) fun _ => Follows.pure rfl
  rw [renameReferences_of_unique hu]
  cases hx : a.declareUnique (modelName ms.length) field with
  | error e => rfl
  | ok b =>
    refine renameReferences_of_unique ?_
    rw [is, declareUnique_name hx]
    exact hu

/-! ### Attributes of models -/

@[simp] theorem renameKeys_is (a : Attribute) (x : String) :
    (a.renameKeys ρ model).is x = a.is x := by
  unfold renameKeys
  split <;> rfl

@[simp] theorem renameLists_is (a : Attribute) (x : String) :
    (a.renameLists ρ model).is x = a.is x := by
  unfold renameLists
  split
  · rfl
  · split <;> rfl

end Attribute

namespace Value

@[simp] theorem kind_mapString (f : String → String) (v : Value) : (v.mapString f).kind = v.kind := by
  cases v <;> rfl

@[simp] theorem kind_renameItems (f : String → String) (v : Value) :
    (v.renameItems f).kind = v.kind := by
  cases v <;> rfl

@[simp] theorem string?_renameItems (f : String → String) (v : Value) :
    (v.renameItems f).string? = v.string? := by
  cases v <;> rfl

end Value

namespace Attribute

/-- An argument of `@@unique` with the key it names and the fields it lists renamed. -/
def renameKeyArg (ρ : Renaming) (model : String) (arg : Argument) : Argument :=
  (if arg.namesKey then arg.mapValue (.mapString (ρ.field model)) else arg).mapValue
    (.renameItems (ρ.field model))

theorem follows_declareShorthand (hρ : ρ.Faithful) {a b : Attribute} (hab : a.span = b.span)
    (arg : Argument) :
    Follows (InModel ρ n ms es model)
      (fun arg arg' => arg.mapValue (.renameItems (ρ.field model)) = arg')
      (a.declareShorthand (modelName ms.length) arg)
      (b.declareShorthand (modelName ms.length) (renameKeyArg ρ model arg)) := by
  have hname : (renameKeyArg ρ model arg).name = arg.name := by
    unfold renameKeyArg
    split <;> rfl
  unfold declareShorthand
  rw [hname]
  cases hn : arg.name with
  | none =>
    have hk : arg.namesKey = false := by simp [Argument.namesKey, Argument.isNamed, hn]
    exact Follows.pure (by simp [renameKeyArg, hk])
  | some name =>
    refine Follows.ite Iff.rfl (fun hc => ?_) fun _ => Follows.throw ?_
    · have hk : arg.namesKey = true := by simpa [Argument.namesKey, Argument.isNamed, hn] using hc
      have hs : (renameKeyArg ρ model arg).value.string? =
          arg.value.string?.map (ρ.field model) := by
        simp [renameKeyArg, hk, Value.string?_mapString]
      rw [hs]
      cases arg.value.string? with
      | none =>
        refine Follows.throw ?_
        simp [fault, hab, renameKeyArg, hk]
      | some old =>
        rw [← hab]
        refine (InModel.ensureField hρ _ model old).bind ?_
        rintro new _ rfl
        refine Follows.pure ?_
        simp [Argument.mapValue, Value.renameItems, renameKeyArg, hk, hn]
    · simp [fault, hab]

theorem follows_declareOnModel (hρ : ρ.Faithful) (a : Attribute) :
    Follows (InModel ρ n ms es model) (fun a b => a.renameLists ρ model = b)
      (a.declareOnModel (modelName ms.length))
      (((a.renameKeys ρ model).renameLists ρ model).declareOnModel (modelName ms.length)) := by
  refine (follows_numberEnv (InModel.countsEnv model) (h := fun a =>
    (a.renameKeys ρ model).renameLists ρ model) fun k => ?_).bind ?_
  · rw [numberEnv_renameLists, numberEnv_renameKeys]
  rintro a _ rfl
  simp only [renameLists_is, renameKeys_is]
  refine Follows.ite Iff.rfl (fun hu => ?_) fun hu => Follows.pure (by simp [renameKeys, hu])
  have hnot : a.is "index" = false ∧ a.is "id" = false :=
    ⟨is_of_ne hu (by decide), is_of_ne hu (by decide)⟩
  have hlists : ∀ b : Attribute, b.name = a.name → b.renameLists ρ model =
      b.mapArgs (.map (·.mapValue (.renameItems (ρ.field model)))) := by
    intro b hb
    have hi : ∀ x, b.is x = a.is x := fun x => by rw [is, is, hb]
    simp [renameLists, hi, hu, hnot]
  have hargs : (a.renameKeys ρ model).renameLists ρ model =
      a.mapArgs (.map (renameKeyArg ρ model)) := by
    rw [hlists _ (by unfold renameKeys; split <;> rfl)]
    simp [renameKeys, hu, mapArgs, renameKeyArg, Function.comp_def]
  rw [hargs]
  refine (Follows.mapM (j := id) fun arg _ =>
    follows_declareShorthand (a := a) (b := a.mapArgs (.map (renameKeyArg ρ model))) hρ rfl arg).bind
    fun args args' h => Follows.pure ?_
  rw [hlists { a with args } rfl, mapArgs, h, List.map_id]
  rfl

end Attribute

/-! ### Blocks -/

theorem Field.follows_declare (hρ : ρ.Faithful) (f : Field) :
    Follows (InModel ρ n ms es model) (fun f g => f.renameReferences ρ model = g)
      (f.declare (modelName ms.length))
      (((f.renameDeclared ρ model).renameReferences ρ model).declare (modelName ms.length)) := by
  refine (InModel.registerField hρ _ model f.name.name).bind ?_
  rintro new _ rfl
  simp only [Field.renameReferences, Field.renameDeclared, List.map_map]
  refine (Follows.mapM (j := id) fun a _ => Attribute.follows_declareOnField hρ new a).bind
    fun as bs h => Follows.pure ?_
  rw [List.map_id] at h
  simp [← h, Ident.rename]

theorem ModelMember.follows_declare (hρ : ρ.Faithful) : ∀ member : ModelMember,
    Follows (InModel ρ n ms es model) (fun a b => a.renameReferences ρ model = b)
      (member.declare (modelName ms.length))
      (((member.renameDeclared ρ model).renameReferences ρ model).declare (modelName ms.length))
  | .field f => (f.follows_declare hρ).map fun _ _ h => congrArg ModelMember.field h
  | .blockAttribute a => by
    refine (a.attr.follows_declareOnModel hρ).bind fun b c h => Follows.pure ?_
    simp only [ModelMember.renameReferences, ← h]
  | .comment c => Follows.pure rfl

theorem EnumValue.follows_declare (hρ : ρ.Faithful) (enum : String) (v : EnumValue) :
    Follows (InEnum ρ n ms es enum) Eq (v.declare (enumName es.length))
      (EnumValue.declare (enumName es.length)
        { v with name := v.name.rename (ρ.value enum v.name.name) }) := by
  refine (InEnum.registerValue hρ _ enum v.name.name).bind ?_
  rintro new _ rfl
  have hattrs : Follows (InEnum ρ n ms es enum) Eq
      (v.attributes.mapM fun a => .numberEnv (a.numberEnv ·))
      ((v.attributes.map id).mapM fun a => .numberEnv (a.numberEnv ·)) :=
    Follows.mapM_eq fun a _ => Follows.numberEnv (InEnum.countsEnv enum) fun k => ⟨rfl, rfl⟩
  rw [List.map_id] at hattrs
  refine hattrs.bind ?_
  rintro as _ rfl
  exact Follows.pure rfl

theorem EnumMember.follows_declare (hρ : ρ.Faithful) (enum : String) : ∀ member : EnumMember,
    Follows (InEnum ρ n ms es enum) Eq (member.declare (enumName es.length))
      ((member.rename ρ enum).declare (enumName es.length))
  | .value v => (v.follows_declare hρ enum).map fun _ _ h => congrArg EnumMember.value h
  | .blockAttribute a => by
    refine (Follows.numberEnv (S := Eq) (InEnum.countsEnv enum) fun k => ⟨rfl, rfl⟩).bind ?_
    rintro b _ rfl
    exact Follows.pure rfl
  | .comment c => Follows.pure rfl

/-! ### Declarations -/

/-- Registries between two declarations while environment variables are counted. -/
def BetweenEnv (ρ : Renaming) (n : Numbering) (o : Outline) (r r' : Registry) : Prop :=
  ∃ env, Between ρ n { o with envVars := env } r r'

theorem BetweenEnv.countsEnv (o : Outline) : CountsEnv (BetweenEnv ρ n o) := by
  rintro r r' ⟨env, rfl, rfl⟩
  exact ⟨rfl, fun k => ⟨k, rfl, rfl⟩⟩

theorem ConfigMember.follows_declare (o : Outline) : ∀ member : ConfigMember,
    Follows (BetweenEnv ρ n o) Eq member.declare member.declare
  | .property p => by
    refine (Follows.numberEnv (S := Eq) (BetweenEnv.countsEnv o) fun k => ⟨rfl, rfl⟩).bind ?_
    rintro value _ rfl
    exact Follows.pure rfl
  | .comment c => Follows.pure rfl

theorem ConfigBlock.follows_declare (o : Outline) (b : ConfigBlock) :
    Follows (BetweenEnv ρ n o) Eq b.declare b.declare := by
  have hmembers : Follows (BetweenEnv ρ n o) Eq (b.members.mapM (·.declare))
      ((b.members.map id).mapM (·.declare)) :=
    Follows.mapM_eq fun member _ => member.follows_declare o
  rw [List.map_id] at hmembers
  refine hmembers.bind ?_
  rintro members _ rfl
  exact Follows.pure rfl

/-- A declaration with its new names, beside the one of the second run, where the models have
these names. -/
inductive Declaration.Renamed (ρ : Renaming) (names : List String) :
    Declaration → Declaration → Prop
  | model {m : Model} {k : Nat} {model : String} (hk : names[k]? = some model)
    (hm : m.name.name = modelName k) : Renamed ρ names (.model m) (.model (m.renameReferences ρ model))
  | other {d : Declaration} (hd : d.model? = none) : Renamed ρ names d d

theorem Declaration.Renamed.mono {names names' : List String} (h : names <+: names')
    {d d' : Declaration} (hd : d.Renamed ρ names d') : d.Renamed ρ names' d' := by
  obtain ⟨more, rfl⟩ := h
  cases hd with
  | model hk hm =>
    refine .model ?_ hm
    rw [List.getElem?_append_left (List.getElem?_eq_some_iff.mp hk).1]
    exact hk
  | other hd => exact .other hd

/-- Both models are new, or both names are taken; from there on their lines are walked through
side by side. -/
theorem Model.alike_declare (hρ : ρ.Faithful) (o : Outline) (m : Model) :
    Alike (fun p q => p.1.name.name = modelName o.models.length ∧
        p.1.renameReferences ρ m.name.name = q.1 ∧
        InModel ρ n o.models o.enums m.name.name p.2 q.2)
      (m.declare (o.registry n)) ((m.rename ρ).declare ((o.rename ρ).registry n)) := by
  unfold Model.declare
  rw [Naming.bind_apply, Naming.bind_apply]
  refine Alike.bind (S := fun p q => p.1 = modelName o.models.length ∧ p.1 = q.1 ∧
    InModel ρ n o.models o.enums m.name.name p.2 q.2) ?_ ?_
  · refine Alike.locate ?_ _
    show Alike _ ((o.registry n).attempt (Registry.registerModel m.name.name))
      (((o.rename ρ).registry n).attempt (Registry.registerModel (ρ.type m.name.name)))
    rw [Outline.registerModel_registry, Outline.registerModel_registry]
    refine Alike.ite ?_ (fun _ => rfl) fun _ => ?_
    · rw [Outline.modelNames_rename, Outline.enumNames_rename, List.mem_map_of_injective hρ.type,
        List.mem_map_of_injective hρ.type]
    · refine ⟨rfl, by simp [Outline.rename], ⟨m.name.name, [], []⟩, o.envVars, rfl, rfl, ?_⟩
      simp [Outline.rename, ModelOutline.rename]
  · rintro ⟨new, r⟩ ⟨_, r'⟩ ⟨rfl, rfl, hr⟩
    have hmembers := Follows.mapM (j := id) (l := m.members) fun member _ =>
      @ModelMember.follows_declare ρ n o.models o.enums m.name.name hρ member
    refine (hmembers r r' hr).bind ?_
    rintro ⟨members, r⟩ ⟨members', r'⟩ ⟨h, hr⟩
    refine ⟨rfl, ?_, hr⟩
    have hm : members' = members.map (·.renameReferences ρ m.name.name) := by
      rw [h, List.map_id]
    simp [Model.renameReferences, Model.rename, hm, Ident.rename]

theorem Enum.alike_declare (hρ : ρ.Faithful) (o : Outline) (e : Enum) :
    Alike (fun p q => p.1 = q.1 ∧ InEnum ρ n o.models o.enums e.name.name p.2 q.2)
      (e.declare (o.registry n)) ((e.rename ρ).declare ((o.rename ρ).registry n)) := by
  unfold Enum.declare
  rw [Naming.bind_apply, Naming.bind_apply]
  refine Alike.bind (S := fun p q => p.1 = enumName o.enums.length ∧ p.1 = q.1 ∧
    InEnum ρ n o.models o.enums e.name.name p.2 q.2) ?_ ?_
  · refine Alike.locate ?_ _
    show Alike _ ((o.registry n).attempt (Registry.registerEnum e.name.name))
      (((o.rename ρ).registry n).attempt (Registry.registerEnum (ρ.type e.name.name)))
    rw [Outline.registerEnum_registry, Outline.registerEnum_registry]
    refine Alike.ite ?_ (fun _ => rfl) fun _ => ?_
    · rw [Outline.modelNames_rename, Outline.enumNames_rename, List.mem_map_of_injective hρ.type,
        List.mem_map_of_injective hρ.type]
    · refine ⟨rfl, by simp [Outline.rename], ⟨e.name.name, _, []⟩, o.envVars, rfl, rfl, rfl, ?_⟩
      simp only [Outline.rename, EnumOutline.used_rename, List.map_append, List.map_cons,
        List.map_nil]
      rfl
  · rintro ⟨new, r⟩ ⟨_, r'⟩ ⟨rfl, rfl, hr⟩
    have hmembers := Follows.mapM_eq (l := e.members) fun member _ =>
      @EnumMember.follows_declare ρ n o.models o.enums hρ e.name.name member
    refine (hmembers r r' hr).bind ?_
    rintro ⟨members, r⟩ ⟨_, r'⟩ ⟨rfl, hr⟩
    exact ⟨rfl, hr⟩

/-- Both runs between two declarations, and what the last one gave. -/
def Declared (ρ : Renaming) (n : Numbering) (o : Outline) (p q : Declaration × Registry) : Prop :=
  ∃ o', Between ρ n o' p.2 q.2 ∧ o.modelNames <+: o'.modelNames ∧ p.1.Renamed ρ o'.modelNames q.1

theorem Declaration.alike_declare (hρ : ρ.Faithful) (o : Outline) : ∀ d : Declaration,
    Alike (Declared ρ n o) (d.declare (o.registry n))
      ((d.rename ρ).declare ((o.rename ρ).registry n))
  | .model m => by
    refine (m.alike_declare hρ o).bind ?_
    rintro ⟨m', r⟩ ⟨_, r'⟩ ⟨hname, rfl, m'', env, hm, hr⟩
    refine ⟨_, hr, ?_, .model ?_ hname⟩
    · simp [Outline.modelNames]
    · simp [Outline.modelNames, hm]
  | .enum e => by
    refine (e.alike_declare hρ o).bind ?_
    rintro ⟨e', r⟩ ⟨_, r'⟩ ⟨rfl, e'', env, -, -, hr⟩
    exact ⟨_, hr, List.prefix_rfl, .other rfl⟩
  | .config b => by
    refine (b.follows_declare o _ _ ⟨o.envVars, rfl, rfl⟩).bind ?_
    rintro ⟨b', r⟩ ⟨_, r'⟩ ⟨rfl, env, hr⟩
    exact ⟨_, hr, List.prefix_rfl, .other rfl⟩
  | .comments b => ⟨o, ⟨rfl, rfl⟩, List.prefix_rfl, .other rfl⟩

/-- Two runs of the first step, from a schema and from the renamed schema: both fail alike, or
only references are left to tell their results apart. -/
theorem Declaration.alike_declareAll (hρ : ρ.Faithful) : ∀ (ds : List Declaration) (o : Outline),
    Alike (fun p q => ∃ o', Between ρ n o' p.2 q.2 ∧ o.modelNames <+: o'.modelNames ∧
        List.Forall₂ (Declaration.Renamed ρ o'.modelNames) p.1 q.1)
      (ds.mapM (·.declare) (o.registry n))
      ((ds.map (·.rename ρ)).mapM (·.declare) ((o.rename ρ).registry n))
  | [], o => ⟨o, ⟨rfl, rfl⟩, List.prefix_rfl, .nil⟩
  | d :: ds, o => by
    rw [List.map_cons, List.mapM_cons, List.mapM_cons, Naming.bind_apply, Naming.bind_apply]
    refine (d.alike_declare hρ o).bind ?_
    rintro ⟨d', _⟩ ⟨d'', _⟩ ⟨o', ⟨rfl, rfl⟩, ho, hd⟩
    refine (alike_declareAll hρ ds o').bind ?_
    rintro ⟨ds', _⟩ ⟨ds'', _⟩ ⟨o'', hr, ho', hds⟩
    exact ⟨o'', hr, ho.trans ho', .cons (hd.mono ho') hds⟩

end Pseudonym

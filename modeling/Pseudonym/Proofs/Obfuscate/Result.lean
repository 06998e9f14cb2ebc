/-
# The result of an obfuscation

What an obfuscation gives, in one equation: the schema with its environment
variables numbered, renamed as its outline says, and with neutral texts.
Registries appear in it no more.
-/
import Pseudonym.Proofs.Obfuscate.FieldResult

namespace Pseudonym

variable {n : Numbering} {r r' : Registry} {o : Outline}

/-! ### Attributes of models -/

namespace Attribute

variable {ms : List ModelOutline} {es : List EnumOutline} {m full : ModelOutline} {ρ : Renaming}
  {model : String} {a b : Attribute}

theorem declareShorthand_ok {arg arg' : Argument} (hm : OfModel n ms es m r)
    (hfull : (m.addKeys arg.keyName?.toList).Within full)
    (hfield : ∀ x ∈ full.keys, ρ.field model x = full.newKey x)
    (h : a.declareShorthand (modelName ms.length) arg r = .ok (arg', r')) :
    arg' = (if arg.namesKey then arg.mapValue (.mapString (ρ.field model)) else arg) ∧
      r'.envVars = r.envVars := by
  unfold declareShorthand at h
  cases hname : arg.name with
  | none =>
    have hkey : arg.namesKey = false := by simp [Argument.namesKey, Argument.isNamed, hname]
    rw [hname] at h
    cases h
    rw [hkey]
    exact ⟨rfl, rfl⟩
  | some name =>
    have hkey : arg.namesKey = (name.name == "name" || name.name == "map") := by
      simp [Argument.namesKey, Argument.isNamed, hname]
    rw [hname] at h
    dsimp only at h
    by_cases hk : (name.name == "name" || name.name == "map") = true
    · rw [if_pos hk] at h
      rw [hkey, if_pos hk]
      cases hv : arg.value with
      | string old =>
        have hold : arg.keyName? = some old := by
          rw [Argument.keyName?, hkey, if_pos hk, hv]
          rfl
        rw [hold] at hfull
        rw [hv] at h
        obtain ⟨env, rfl⟩ := hm
        dsimp only [Value.string?] at h
        rw [Naming.bind_apply, Naming.register, Outline.ensureField_last] at h
        cases h
        have hnew : fieldName ((m.addKey old).keys.idxOf old) = ρ.field model old := by
          rw [hfield _ (hfull.keys.subset (by simp)), ModelOutline.newKey,
            ← hfull.keys.idxOf_eq_of_mem (by simp [ModelOutline.addKeys])]
          rfl
        rw [hnew, Argument.mapValue, hv, hname]
        exact ⟨rfl, rfl⟩
      | _ =>
        rw [hv] at h
        cases h
    · rw [if_neg hk, Naming.throw_apply] at h
      cases h

theorem declareOnModel_ok (hm : OfModel n ms es m r) (hfull : (m.addKeys a.keyNames).Within full)
    (hfield : ∀ x ∈ full.keys, ρ.field model x = full.newKey x)
    (h : a.declareOnModel (modelName ms.length) r = .ok (b, r')) :
    b = (a.numberEnv r.envVars).1.renameKeys ρ model ∧
      r'.envVars = (a.numberEnv r.envVars).2 := by
  have hm' := hm.numberEnv (a.numberEnv r.envVars).2
  rw [← keyNames_numberEnv r.envVars a] at hfull
  rw [declareOnModel, Naming.numberEnv_bind] at h
  generalize (a.numberEnv r.envVars).1 = a at h hfull ⊢
  by_cases hu : a.is "unique" = true
  · rw [if_pos hu, Naming.bind_apply] at h
    obtain ⟨⟨args, r₁⟩, hargs, h⟩ := bind_ok h
    cases h
    rw [keyNames, if_pos hu, ← ModelOutline.addKeys_foldl] at hfull
    obtain ⟨hlist, henv⟩ := mapM_naming_ok (R := OfModel n ms es) (k := fun i arg => (arg, i))
      (g := fun arg => if arg.namesKey then arg.mapValue (.mapString (ρ.field model)) else arg)
      (fun before arg after r arg' r' hl hr harg => by
        have hprefix := grows_of_foldl .refl .trans (fun m _ => m.within_addKeys _) hl hfull
        exact ⟨((meets_declareShorthand a arg hr hprefix).of_ok harg).2.2,
          declareShorthand_ok hr hprefix hfield harg⟩)
      hm' hargs
    rw [numberAlong_same] at hlist henv
    rw [hlist, renameKeys, if_pos hu]
    exact ⟨rfl, henv⟩
  · rw [if_neg hu] at h
    cases h
    rw [renameKeys, if_neg hu]
    exact ⟨rfl, rfl⟩

theorem resolveFirst_ok {sign : String} (hr : OfOutline n o r) (hmodel : model ∈ o.modelNames)
    (h : a.resolveFirst r sign (modelName (o.modelNames.idxOf model)) = .ok b) :
    b = a.mapArgs (Argument.mapHead (.renameItems (o.newNames.field model))) := by
  unfold resolveFirst at h
  rw [mapArgs]
  cases hargs : a.args with
  | nil =>
    rw [hargs] at h
    cases h
  | cons first rest =>
    rw [hargs] at h
    obtain ⟨w, hw, h⟩ := bind_ok (locate_ok h)
    cases h
    rw [Value.resolveFields_ok hr hmodel hw]
    rfl

theorem renameIndex_ok {new : String} {number : Nat} (h : a.renameIndex new number = .ok b) :
    b = a.mapArgs (retextSecond (Texts.neutral.index new number)) := by
  unfold renameIndex at h
  rw [mapArgs]
  rcases hargs : a.args with _ | ⟨first, _ | ⟨second, rest⟩⟩
  · rw [hargs] at h
    cases h
  · rw [hargs] at h
    cases h
  · rw [hargs] at h
    dsimp only at h
    by_cases hmap : second.isNamed "map" = true
    · rw [if_pos hmap] at h
      rw [retextSecond, if_pos hmap]
      cases hv : second.value with
      | string text =>
        rw [hv] at h
        cases h
        rw [Argument.mapValue, hv]
        rfl
      | _ =>
        rw [hv] at h
        cases h
    · rw [if_neg hmap] at h
      cases h

theorem resolveUnique_ok (hr : OfOutline n o r) (hmodel : model ∈ o.modelNames)
    (h : a.resolveUnique r (modelName (o.modelNames.idxOf model)) = .ok b) :
    b = a.mapArgs (.map (·.mapValue (.renameItems (o.newNames.field model)))) := by
  obtain ⟨args, hargs, h⟩ := bind_ok (locate_ok h)
  cases h
  have harg : ∀ arg arg' : Argument,
      resolveKeyArg r (modelName (o.modelNames.idxOf model)) arg = .ok arg' →
        arg' = arg.mapValue (.renameItems (o.newNames.field model)) := by
    intro arg arg' h
    unfold resolveKeyArg at h
    cases hv : arg.value.array? with
    | none =>
      rw [hv] at h
      cases h
      have hid : arg.value.renameItems (o.newNames.field model) = arg.value := by
        cases hvalue : arg.value with
        | array items =>
          rw [hvalue] at hv
          cases hv
        | _ => rfl
      rw [Argument.mapValue, hid]
      cases arg
      rfl
    | some items =>
      rw [hv] at h
      obtain ⟨w, hw, h⟩ := bind_ok h
      cases h
      rw [Value.resolveFields_ok hr hmodel hw]
      rfl
  rw [mapM_ok (fun arg _ arg' => harg arg arg') hargs]
  rfl

/-- What becomes of an attribute of a model when its references are resolved. -/
theorem resolveOnModel_ok {number : Nat} (hr : OfOutline n o r) (hmodel : model ∈ o.modelNames)
    (h : a.resolveOnModel r (modelName (o.modelNames.idxOf model)) number = .ok b) :
    b = (a.renameLists o.newNames model).retextIndex
      (Texts.neutral.index (modelName (o.modelNames.idxOf model)) number) := by
  unfold resolveOnModel at h
  by_cases hindex : a.is "index" = true
  · rw [if_pos hindex] at h
    obtain ⟨c, hc, h⟩ := bind_ok h
    have hlists : a.renameLists o.newNames model =
        a.mapArgs (Argument.mapHead (.renameItems (o.newNames.field model))) := by
      simp [renameLists, hindex]
    rw [renameIndex_ok h, resolveFirst_ok hr hmodel hc, hlists, retextIndex, mapArgs_is, if_pos hindex]
  rw [if_neg hindex] at h
  have hretext : ∀ text (a' : Attribute), a'.is "index" = a.is "index" → a'.retextIndex text = a' := by
    intro text a' ha'
    rw [retextIndex, ha', if_neg hindex]
  rw [hretext _ _ (renameLists_is ..)]
  by_cases hid : a.is "id" = true
  · rw [if_pos hid] at h
    rw [resolveFirst_ok hr hmodel h]
    simp [renameLists, hid]
  rw [if_neg hid] at h
  by_cases hu : a.is "unique" = true
  · rw [if_pos hu] at h
    rw [resolveUnique_ok hr hmodel h]
    simp [renameLists, hindex, hid, hu]
  · rw [if_neg hu] at h
    cases h
    simp [renameLists, hindex, hid, hu]

end Attribute

/-! ### Models -/

namespace ModelMember

variable {ms : List ModelOutline} {es : List EnumOutline} {m full : ModelOutline} {ρ : Renaming}
  {model : String}

/-- A line of a model, whose new name is `new`, when it is declared. -/
def declared (ρ : Renaming) (model new : String) : ModelMember → ModelMember
  | .field f => .field (f.declared ρ model new)
  | .blockAttribute a => .blockAttribute ⟨a.attr.renameKeys ρ model, a.comment.map (·.cleared)⟩
  | .comment c => .comment c.cleared

theorem declare_ok {member member' : ModelMember} (hm : OfModel n ms es m r)
    (hfull : (m.addMember member).Within full)
    (hfield : ∀ x ∈ full.keys, ρ.field model x = full.newKey x)
    (hrelation : ∀ x ∈ full.relations, ρ.relation model x = full.newRelation ms.length x)
    (h : member.declare (modelName ms.length) r = .ok (member', r')) :
    member' = (member.numberEnv r.envVars).1.declared ρ model (modelName ms.length) ∧
      r'.envVars = (member.numberEnv r.envVars).2 := by
  cases member with
  | field f =>
    rw [declare, Naming.map_apply] at h
    obtain ⟨⟨g, r₁⟩, hg, h⟩ := bind_ok h
    cases h
    obtain ⟨heq, henv⟩ := Field.declare_ok hm hfull hfield hrelation hg
    exact ⟨congrArg ModelMember.field heq, henv⟩
  | blockAttribute a =>
    have hadd : m.addMember (.blockAttribute a) = m.addKeys a.attr.keyNames :=
      ModelOutline.addRelations_nil _
    rw [hadd] at hfull
    rw [declare, Naming.bind_apply] at h
    obtain ⟨⟨b, r₁⟩, hb, h⟩ := bind_ok h
    cases h
    obtain ⟨heq, henv⟩ := Attribute.declareOnModel_ok hm hfull hfield hb
    rw [heq]
    exact ⟨rfl, henv⟩
  | comment c =>
    cases h
    exact ⟨rfl, rfl⟩

/-- Both steps along the lines of a model. -/
theorem resolveEach_declared_ok (hr : OfOutline n o r) (hmodel : model ∈ o.modelNames) :
    ∀ {members members' : List ModelMember} {number : Nat},
    resolveEach r (modelName (o.modelNames.idxOf model)) number
      (members.map (·.declared o.newNames model (modelName (o.modelNames.idxOf model)))) =
        .ok members' →
    members' = (numberAlong (retext .neutral (modelName (o.modelNames.idxOf model))) number
      (members.map fun member =>
        (member.renameDeclared o.newNames model).renameReferences o.newNames model)).1
  | [], _, _, h => by
    cases h
    rfl
  | .field f :: rest, members', number, h => by
    obtain ⟨g, hg, h⟩ := bind_ok h
    obtain ⟨rest', hrest, h⟩ := bind_ok h
    cases h
    rw [Field.resolve_declared_ok hr hmodel hg, resolveEach_declared_ok hr hmodel hrest]
    rfl
  | .blockAttribute a :: rest, members', number, h => by
    obtain ⟨b, hb, h⟩ := bind_ok h
    obtain ⟨rest', hrest, h⟩ := bind_ok h
    cases h
    have his : ((a.attr.renameKeys o.newNames model).renameLists o.newNames model).is "index" =
        (a.attr.renameKeys o.newNames model).is "index" := Attribute.renameLists_is ..
    rw [Attribute.resolveOnModel_ok hr hmodel hb, resolveEach_declared_ok hr hmodel hrest, ← his]
    rfl
  | .comment c :: rest, members', number, h => by
    obtain ⟨rest', hrest, h⟩ := bind_ok h
    cases h
    rw [resolveEach_declared_ok hr hmodel hrest]
    rfl

end ModelMember

/-- A model when it is declared. -/
def Model.declared (ρ : Renaming) (m : Model) : Model where
  name := m.name.rename (ρ.type m.name.name)
  members := m.members.map (·.declared ρ m.name.name (ρ.type m.name.name))
  span := m.span

theorem Registry.envVars_registerModel {name new : String}
    (h : r.attempt (registerModel name) = .ok (new, r')) : r'.envVars = r.envVars := by
  rw [attempt, perform_registerModel] at h
  split at h
  · cases h
  · cases h
    rfl

theorem Registry.envVars_registerEnum {name new : String}
    (h : r.attempt (registerEnum name) = .ok (new, r')) : r'.envVars = r.envVars := by
  rw [attempt, perform_registerEnum] at h
  split at h
  · cases h
  · cases h
    rfl

theorem not_mem_of_fresh {name : String} (h : Fresh o.typeNames [name]) :
    ¬(name ∈ o.modelNames ∨ name ∈ o.enumNames) := fun hm =>
  h.2 name List.mem_cons_self (List.mem_append.mpr hm)

theorem Model.declare_ok {m m' : Model} {full : Outline} (hr : OfOutline n o r)
    (hfull : (o.addDeclaration n (.model m)).Within full) (h : m.declare r = .ok (m', r')) :
    m' = Model.declared full.newNames
        { m with members := (numberAlong ModelMember.numberEnv r.envVars m.members).1 } ∧
      r'.envVars = (numberAlong ModelMember.numberEnv r.envVars m.members).2 := by
  obtain ⟨⟨hfresh, -⟩, hdeclared, -⟩ := (m.meets_declare hr hfull).of_ok h
  have hmem : m.name.name ∉ o.models.map (·.name) := fun hm => not_mem_of_fresh hfresh (.inl hm)
  obtain ⟨hidx, hget⟩ := idxOf_map_added hfull.models (m.name_outline.symm ▸ hmem)
  rw [name_outline] at hidx
  have hget' : full.models[full.modelNames.idxOf m.name.name]? = some m.outline := hdeclared.outline
  have htype : full.newNames.type m.name.name = modelName o.models.length := by
    rw [← hidx]
    refine Outline.newNames_type_of_model (List.mem_map.mpr ⟨m.outline, ?_, m.name_outline⟩)
    exact List.mem_of_getElem? hget'
  have hrelation : ∀ x ∈ m.outline.relations,
      full.newNames.relation m.name.name x = m.outline.newRelation o.models.length x := by
    intro x hx
    rw [Outline.newNames_relation_of_mem hget' hx, Outline.modelNames, hidx]
  rw [declare, Naming.bind_apply, Naming.register] at h
  obtain ⟨⟨new, r₀⟩, hregister, h⟩ := bind_ok h
  obtain ⟨⟨members, r₁⟩, hmembers, h⟩ := bind_ok h
  cases h
  obtain ⟨-, rfl, hstart⟩ := (meets_register hr _).of_ok (locate_ok hregister)
  have henv₀ := Registry.envVars_registerModel (locate_ok hregister)
  obtain ⟨hlist, henv⟩ := mapM_naming_ok (R := OfModel n o.models o.enums)
    (k := ModelMember.numberEnv)
    (g := (·.declared full.newNames m.name.name (modelName o.models.length)))
    (fun before member after r member' r' hl hr hmember => by
      have hprefix := grows_of_foldl .refl .trans ModelOutline.within_addMember hl (.refl m.outline)
      exact ⟨((ModelMember.meets_declare member hr hprefix).of_ok hmember).2.2,
        ModelMember.declare_ok hr hprefix (fun _ => Outline.newNames_field_of_mem hget') hrelation
          hmember⟩)
    hstart hmembers
  rw [henv₀] at hlist henv
  refine ⟨?_, henv⟩
  rw [hlist]
  simp only [declared, htype]

/-! ### Enums and configuration -/

theorem EnumValue.declare_ok {ms : List ModelOutline} {es : List EnumOutline} {e full : EnumOutline}
    {ρ : Renaming} {enum : String} {v v' : EnumValue} (he : OfEnum n ms es e r)
    (hfull : (e.addValues [v.name.name]).Within full)
    (hvalue : ∀ x ∈ full.values, ρ.value enum x = full.newValue x)
    (h : v.declare (enumName es.length) r = .ok (v', r')) :
    EnumMember.value v' = ((EnumMember.value (v.numberEnv r.envVars).1).rename ρ enum).cleared ∧
      r'.envVars = (v.numberEnv r.envVars).2 := by
  obtain ⟨⟨-, hmem⟩, hname, -⟩ := (v.meets_declare he hfull).of_ok h
  obtain ⟨⟨env, rfl⟩, hbase⟩ := he
  rw [declare, Naming.bind_apply, Naming.register, Outline.registerValue_last hbase,
    if_neg (hmem _ List.mem_cons_self)] at h
  obtain ⟨⟨new, r₀⟩, hregister, h⟩ := bind_ok h
  obtain ⟨⟨attributes, r₁⟩, hattributes, h⟩ := bind_ok h
  cases locate_ok hregister
  cases h
  obtain ⟨hlist, henv⟩ := mapM_numbering_ok (k := Attribute.numberEnv) (g := id)
    (fun a r b r' hb => by
      cases hb
      exact ⟨rfl, rfl⟩)
    hattributes
  refine ⟨?_, henv⟩
  have hvalues : v.name.name ∈ full.values := hfull.values.subset (by simp [EnumOutline.addValues])
  dsimp only [Ident.rename] at hname
  rw [hlist, hname, ← hvalue _ hvalues, List.map_id]
  rfl

theorem EnumMember.declare_ok {ms : List ModelOutline} {es : List EnumOutline} {e full : EnumOutline}
    {ρ : Renaming} {enum : String} {member member' : EnumMember} (he : OfEnum n ms es e r)
    (hfull : (e.addValues member.valueName?.toList).Within full)
    (hvalue : ∀ x ∈ full.values, ρ.value enum x = full.newValue x)
    (h : member.declare (enumName es.length) r = .ok (member', r')) :
    member' = ((member.numberEnv r.envVars).1.rename ρ enum).cleared ∧
      r'.envVars = (member.numberEnv r.envVars).2 := by
  cases member with
  | value v =>
    rw [declare, Naming.map_apply] at h
    obtain ⟨⟨v', r₁⟩, hv, h⟩ := bind_ok h
    cases h
    exact EnumValue.declare_ok he hfull hvalue hv
  | blockAttribute a =>
    cases h
    exact ⟨rfl, rfl⟩
  | comment c =>
    cases h
    exact ⟨rfl, rfl⟩

/-- An enum when it is declared. -/
def Enum.declared (ρ : Renaming) (e : Enum) : Enum where
  name := e.name.rename (ρ.type e.name.name)
  members := e.members.map fun member => (member.rename ρ e.name.name).cleared
  span := e.span

theorem Enum.declare_ok {e e' : Enum} {full : Outline} (hr : OfOutline n o r)
    (hfull : (o.addDeclaration n (.enum e)).Within full)
    (htype : full.newNames.type e.name.name = enumName (full.enumNames.idxOf e.name.name))
    (h : e.declare r = .ok (e', r')) :
    e' = Enum.declared full.newNames
        { e with members := (numberAlong EnumMember.numberEnv r.envVars e.members).1 } ∧
      r'.envVars = (numberAlong EnumMember.numberEnv r.envVars e.members).2 := by
  obtain ⟨⟨hfresh, -⟩, -⟩ := (e.meets_declare hr hfull).of_ok h
  have hmem : e.name.name ∉ o.enums.map (·.name) := fun he => not_mem_of_fresh hfresh (.inr he)
  obtain ⟨hidx, hget⟩ := idxOf_map_added (a := e.outline (EnumOutline.used n o.enums)) hfull.enums hmem
  have hidx' : full.enumNames.idxOf e.name.name = o.enums.length := hidx
  rw [hidx'] at htype
  have hvalue : ∀ x ∈ (e.outline (EnumOutline.used n o.enums)).values,
      full.newNames.value e.name.name x = (e.outline (EnumOutline.used n o.enums)).newValue x :=
    fun _ => Outline.newNames_value_of_mem (by rw [hidx', hget])
  rw [declare, Naming.bind_apply, Naming.register] at h
  obtain ⟨⟨new, r₀⟩, hregister, h⟩ := bind_ok h
  obtain ⟨⟨members, r₁⟩, hmembers, h⟩ := bind_ok h
  cases h
  obtain ⟨-, rfl, hstart⟩ := (meets_register hr _).of_ok (locate_ok hregister)
  have henv₀ := Registry.envVars_registerEnum (locate_ok hregister)
  obtain ⟨hlist, henv⟩ := mapM_naming_ok (R := OfEnum n o.models o.enums)
    (k := EnumMember.numberEnv) (g := fun member => (member.rename full.newNames e.name.name).cleared)
    (fun before member after r member' r' hl hr hmember =>
      ⟨((member.meets_declare hr (within_outline hl)).of_ok hmember).2.2,
        EnumMember.declare_ok hr (within_outline hl) hvalue hmember⟩)
    hstart hmembers
  rw [henv₀] at hlist henv
  refine ⟨?_, henv⟩
  rw [hlist]
  simp only [declared, htype]

theorem ConfigMember.declare_ok {member member' : ConfigMember}
    (h : member.declare r = .ok (member', r')) :
    member' = (member.numberEnv r.envVars).1.cleared ∧
      r'.envVars = (member.numberEnv r.envVars).2 := by
  cases member with
  | property p =>
    cases h
    exact ⟨rfl, rfl⟩
  | comment c =>
    cases h
    exact ⟨rfl, rfl⟩

/-! ### Schemas -/

/-- A declaration when it is declared. -/
def Declaration.declared (ρ : Renaming) : Declaration → Declaration
  | .config b => .config { b with members := b.members.map (·.cleared) }
  | .model m => .model (m.declared ρ)
  | .enum e => .enum (e.declared ρ)
  | .comments b => .comments { b with comments := [] }

theorem Declaration.declare_ok {d d' : Declaration} {full : Outline} (hr : OfOutline n o r)
    (hfull : (o.addDeclaration n d).Within full)
    (htype : ∀ e, d = .enum e →
      full.newNames.type e.name.name = enumName (full.enumNames.idxOf e.name.name))
    (h : d.declare r = .ok (d', r')) :
    d' = (d.numberEnv r.envVars).1.declared full.newNames ∧
      r'.envVars = (d.numberEnv r.envVars).2 := by
  cases d with
  | config b =>
    rw [declare, Naming.map_apply, ConfigBlock.declare, Naming.bind_apply] at h
    obtain ⟨⟨b', r₁⟩, hb, h⟩ := bind_ok h
    obtain ⟨⟨members, r₂⟩, hmembers, hb⟩ := bind_ok hb
    cases hb
    cases h
    obtain ⟨hlist, henv⟩ := mapM_numbering_ok (k := ConfigMember.numberEnv)
      (g := ConfigMember.cleared) (fun _ _ _ _ => ConfigMember.declare_ok) hmembers
    rw [hlist]
    exact ⟨rfl, henv⟩
  | model m =>
    rw [declare, Naming.map_apply] at h
    obtain ⟨⟨m', r₁⟩, hm, h⟩ := bind_ok h
    cases h
    obtain ⟨hmodel, henv⟩ := Model.declare_ok hr hfull hm
    exact ⟨congrArg Declaration.model hmodel, henv⟩
  | enum e =>
    rw [declare, Naming.map_apply] at h
    obtain ⟨⟨e', r₁⟩, he, h⟩ := bind_ok h
    cases h
    obtain ⟨henum, henv⟩ := Enum.declare_ok hr hfull (htype e rfl) he
    exact ⟨congrArg Declaration.enum henum, henv⟩
  | comments b =>
    cases h
    exact ⟨rfl, rfl⟩

/-- Both steps at a declaration. -/
theorem Declaration.resolve_declared_ok {d d' : Declaration} (hr : OfOutline n o r)
    (hmodel : ∀ m, d = .model m → m.name.name ∈ o.modelNames)
    (h : (d.declared o.newNames).resolve r = .ok d') : d' = (d.rename o.newNames).retext .neutral := by
  cases d with
  | model m =>
    have hmem := hmodel m rfl
    have htype : o.newNames.type m.name.name = modelName (o.modelNames.idxOf m.name.name) :=
      Outline.newNames_type_of_model hmem
    obtain ⟨m', hm, h⟩ := bind_ok h
    obtain ⟨members, hmembers, hm⟩ := bind_ok hm
    cases hm
    cases h
    simp only [Model.declared, Ident.rename, htype] at hmembers
    rw [ModelMember.resolveEach_declared_ok hr hmem hmembers, ← htype]
    rfl
  | enum e =>
    cases h
    simp only [Enum.declared, rename, Enum.rename, retext, List.map_map, Function.comp_def]
  | config b =>
    cases h
    rfl
  | comments b =>
    cases h
    rfl

/-- What an obfuscation makes of a schema. -/
def Schema.result (n : Numbering) (s : Schema) : Schema :=
  ((s.numberEnv 0).1.rename (s.outline n).newNames).retext .neutral

/-- What the first step makes of a schema: everything has its number and its new name, and the
registry is that of the outline. -/
theorem Schema.declare_ok {s t : Schema} (h : s.declare (.new n) = .ok (t, r)) :
    t.declarations = (s.numberEnv 0).1.declarations.map (·.declared (s.outline n).newNames) ∧
      r = Outline.registry n { s.outline n with envVars := (s.numberEnv 0).2 } := by
  obtain ⟨⟨hnodup, -⟩, -, env, hr⟩ := (s.meets_declare n).of_ok h
  rw [declare, Naming.bind_apply] at h
  obtain ⟨⟨ds, r₂⟩, hds, h⟩ := bind_ok h
  cases h
  have hnew : ∀ e ∈ s.enums, (s.outline n).newNames.type e.name.name =
      enumName ((s.outline n).enumNames.idxOf e.name.name) := by
    intro e he
    exact Outline.newNames_type_of_enum (fun hm => disjoint_types hnodup hm (mem_enumNames he))
      (mem_enumNames he)
  obtain ⟨hlist, henv⟩ := mapM_naming_ok (R := OfOutline n) (k := Declaration.numberEnv)
    (g := (·.declared (s.outline n).newNames))
    (fun before d after r d' r' hl hr hd => by
      have hprefix := grows_of_foldl .refl .trans (Outline.within_addDeclaration n) hl
        (.refl (s.outline n))
      refine ⟨((d.meets_declare hr hprefix).of_ok hd).2.2, Declaration.declare_ok hr hprefix ?_ hd⟩
      rintro e rfl
      exact hnew e (List.mem_filterMap.mpr ⟨.enum e, by rw [hl]; simp, rfl⟩))
    ⟨0, (Outline.registry_empty n).symm⟩ hds
  dsimp only at hr
  subst hr
  cases henv
  exact ⟨hlist, rfl⟩

/-- **The result of an obfuscation**, where it has one. -/
theorem Schema.eq_result_of_ok {s t : Schema} (h : s.obfuscate n = .ok (t, r)) :
    t = s.result n ∧ r = Outline.registry n { s.outline n with envVars := (s.numberEnv 0).2 } := by
  obtain ⟨⟨declared, r₁⟩, hdeclare, h⟩ := bind_ok h
  obtain ⟨resolved, hresolve, h⟩ := bind_ok h
  cases h
  obtain ⟨hdeclared, hr⟩ := declare_ok hdeclare
  refine ⟨?_, hr⟩
  have hmodel : ∀ d ∈ (s.numberEnv 0).1.declarations, ∀ m, d = .model m →
      m.name.name ∈ (s.outline n).modelNames := by
    rintro _ hd m rfl
    obtain ⟨d, hds, k, hk⟩ := exists_left_of_forall₂ (forall₂_numberAlong 0 s.declarations) hd
    cases d with
    | model m₀ =>
      cases hk
      exact mem_modelNames (m := m₀) (List.mem_filterMap.mpr ⟨_, hds, rfl⟩)
    | _ => cases hk
  obtain ⟨resolved', hresolved, hresolve⟩ := bind_ok hresolve
  cases hresolve
  rw [hdeclared, List.mapM_map] at hresolved
  rw [mapM_ok (fun d hd d' => Declaration.resolve_declared_ok ⟨_, hr⟩ (hmodel d hd)) hresolved]
  simp only [result, rename, retext, List.map_map, Function.comp_def]

end Pseudonym

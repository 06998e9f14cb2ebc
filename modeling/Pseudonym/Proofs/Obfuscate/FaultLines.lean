/-
# The lines of faults

Every fault is found at a part of the schema and has the line of that part. The
first step stops at the first name that was declared before, and has the line
of this name, or at an attribute that it cannot read. The second step stops at
the type of a field that is not declared, or at an attribute whose references
are not; then the fault has the line of the attribute, even if what is wrong
with it stands further down.

What a fault says is said of the schema as it was given: the first step changes
names, but neither the parts of a schema nor where they stand. In each case the
part is to blame by itself: the name is among those before it, and the
attribute does not meet its own conditions.
-/
import Pseudonym.Proofs.Obfuscate.Acceptance
import Pseudonym.Proofs.Obfuscate.Causes
import Pseudonym.Proofs.Syntax.Extents

namespace Pseudonym

variable {n : Numbering} {ms : List ModelOutline} {es : List EnumOutline} {r : Registry}

namespace Schema

variable {s : Schema}

theorem mem_models {m : Model} : m ∈ s.models ↔ .model m ∈ s.declarations := by
  constructor
  · intro h
    obtain ⟨d, hd, hmodel⟩ := List.mem_filterMap.mp h
    cases d with
    | model m' =>
      cases hmodel
      exact hd
    | _ => cases hmodel
  · exact fun h => List.mem_filterMap.mpr ⟨_, h, rfl⟩

theorem mem_enums {e : Enum} : e ∈ s.enums ↔ .enum e ∈ s.declarations := by
  constructor
  · intro h
    obtain ⟨d, hd, henum⟩ := List.mem_filterMap.mp h
    cases d with
    | enum e' =>
      cases henum
      exact hd
    | _ => cases henum
  · exact fun h => List.mem_filterMap.mpr ⟨_, h, rfl⟩

end Schema

/-! ### What can be wrong, and where -/

/-- What the first step can find wrong in an attribute of a field, in a model that has declared
these relations: its relation is one of them, or it is a unique key without its shape. -/
inductive Attribute.Misdeclares (relations : List String) (a : Attribute) : Cause → Prop
  | relation {name : String} (scope : Option String) (declares : a.declaredRelation? = some name)
    (again : name ∈ relations) : Misdeclares relations a (.duplicate .relation name scope)
  | unique (defect : Defect) (hu : a.is "unique" = true) (hshape : ¬a.UniqueOnField) :
    Misdeclares relations a (.malformed "@unique" defect)

/-- What the first step can find wrong on a line of a model that has declared these keys and
relations, and where. -/
inductive ModelMember.Misdeclares (keys relations : List String) :
    ModelMember → Cause → Extent → Prop
  | field {f : Field} (scope : Option String) (again : f.name.name ∈ keys) :
    Misdeclares keys relations (.field f) (.duplicate .field f.name.name scope) f.name.extent
  | onField {f : Field} {earlier later : List Attribute} {a : Attribute} {cause : Cause}
    (split : f.attributes = earlier ++ a :: later)
    (h : a.Misdeclares (relations ++ earlier.filterMap (·.declaredRelation?)) cause) :
    Misdeclares keys relations (.field f) cause (a.extent "@")
  | onModel {a : BlockAttribute} (defect : Defect) (hu : a.attr.is "unique" = true)
    (hshape : ¬a.attr.UniqueOnModel) :
    Misdeclares keys relations (.blockAttribute a) (.malformed "@@unique" defect)
      (a.attr.extent "@@")

/-- What the first step can find wrong in a declaration behind models and enums with these names,
and where. -/
inductive Declaration.Misdeclares (names : List String) : Declaration → Cause → Extent → Prop
  | model {m : Model} (again : m.name.name ∈ names) :
    Misdeclares names (.model m) (.duplicate .model m.name.name none) m.name.extent
  | enum {e : Enum} (again : e.name.name ∈ names) :
    Misdeclares names (.enum e) (.duplicate .enum e.name.name none) e.name.extent
  | member {m : Model} {before after : List ModelMember} {member : ModelMember} {cause : Cause}
    {x : Extent} (split : m.members = before ++ member :: after)
    (h : member.Misdeclares (before.flatMap (·.keyNames)) (before.flatMap (·.relationNames)) cause x) :
    Misdeclares names (.model m) cause x
  | value {e : Enum} {before after : List EnumMember} {v : EnumValue} (scope : Option String)
    (split : e.members = before ++ .value v :: after)
    (again : v.name.name ∈ before.filterMap (·.valueName?)) :
    Misdeclares names (.enum e) (.duplicate .enumValue v.name.name scope) v.name.extent

/-- What the first step can find wrong in a schema, and where. -/
def Schema.Misdeclares (s : Schema) (cause : Cause) (x : Extent) : Prop :=
  ∃ before d after, s.declarations = before ++ d :: after ∧
    d.Misdeclares (before.filterMap (·.typeName?)) cause x

/-- What the second step can find wrong on a line of a model, and where. -/
inductive ModelMember.Misrefers (s : Schema) (m : Model) : ModelMember → Cause → Extent → Prop
  | type {f : Field} {i : Ident} (htype : f.type = .named i) (missing : i.name ∉ s.typeNames) :
    Misrefers s m (.field f) (.unresolved .modelOrEnum i.name none) i.extent
  | onField {f : Field} {a : Attribute} {cause : Cause} (ha : a ∈ f.attributes)
    (hcause : cause.Concerns ("@" ++ a.name.name))
    (h : ¬a.SuitsField f.type (s.scopesAt m f.type)) : Misrefers s m (.field f) cause (a.extent "@")
  | onModel {a : BlockAttribute} {cause : Cause} (hcause : cause.Concerns ("@@" ++ a.attr.name.name))
    (h : ¬a.attr.SuitsModel m.keyNames) :
    Misrefers s m (.blockAttribute a) cause (a.attr.extent "@@")

/-- What the second step can find wrong in a schema, and where. -/
def Schema.Misrefers (s : Schema) (cause : Cause) (x : Extent) : Prop :=
  ∃ m ∈ s.models, ∃ member ∈ m.members, member.Misrefers s m cause x

/-- The fault is found at a part that `P` holds of, and has its line. -/
def Fault.At (P : Cause → Extent → Prop) (e : Fault) : Prop :=
  ∃ x, P e.cause x ∧ e.line = some x.span.line

theorem Fault.At.mono {P P' : Cause → Extent → Prop} {e : Fault} (h : e.At P)
    (hP : ∀ cause x, P cause x → P' cause x) : e.At P' := by
  obtain ⟨x, hx, hline⟩ := h
  exact ⟨x, hP _ x hx, hline⟩

/-! ### Declaring attributes -/

namespace Attribute

variable {m : ModelOutline} {field : String}

theorem fails_declareUnique (model field : String) {a : Attribute} (hu : a.is "unique" = true)
    (relations : List String) : FailsWith (a.declareUnique model field)
      (Fault.On (some a.span.line) (a.Misdeclares relations)) := by
  intro e he
  have hshape := (meets_declareUnique model field hu).of_error he
  unfold declareUnique at he
  split at he
  · cases he
  · cases he
    exact ⟨rfl, .unique _ hu hshape⟩

theorem fails_declareRelation {a : Attribute} (hr : a.is "relation" = true)
    (hm : OfModel n ms es m r) : FailsWith (a.declareRelation (modelName ms.length) r)
      (Fault.On (some a.span.line) (a.Misdeclares m.relations)) := by
  unfold declareRelation
  by_cases hd : a.declaresRelation = true
  · rw [if_pos hd]
    cases hname : a.relationName? with
    | none => exact .ok
    | some name =>
      have hdeclares : a.declaredRelation? = some name := by
        simp [declaredRelation?, hr, hd, hname]
      obtain ⟨env, rfl⟩ := hm
      dsimp only
      rw [Naming.bind_apply, Naming.register, Outline.registerRelation_last]
      by_cases hx : name ∈ m.relations
      · rw [if_pos hx]
        exact .error ⟨rfl, .relation _ hdeclares hx⟩
      · rw [if_neg hx]
        exact .ok
  · rw [if_neg hd]
    exact .ok

/-- Naming environment variables changes nothing that is looked at. -/
theorem misdeclares_numberEnv {relations : List String} {a : Attribute} {k : Nat} {cause : Cause}
    (h : (a.numberEnv k).1.Misdeclares relations cause) : a.Misdeclares relations cause := by
  cases h with
  | relation scope declares again =>
    rw [declaredRelation?_numberEnv] at declares
    exact .relation scope declares again
  | unique defect hu hshape =>
    rw [uniqueOnField_numberEnv] at hshape
    exact .unique defect hu hshape

theorem fails_declareOnField (a : Attribute) (hm : OfModel n ms es m r) :
    FailsWith (a.declareOnField (modelName ms.length) field r)
      (Fault.On (some a.span.line) (a.Misdeclares m.relations)) := by
  have hm' := hm.numberEnv (a.numberEnv r.envVars).2
  have hspan : (a.numberEnv r.envVars).1.span = a.span := rfl
  have hback : ∀ cause, (a.numberEnv r.envVars).1.Misdeclares m.relations cause →
      a.Misdeclares m.relations cause := fun _ => misdeclares_numberEnv
  rw [declareOnField, Naming.numberEnv_bind, ← hspan]
  generalize (a.numberEnv r.envVars).1 = b at hback
  by_cases hr : b.is "relation" = true
  · rw [if_pos hr]
    exact (fails_declareRelation hr hm').mono fun e he => ⟨he.1, hback _ he.2⟩
  · rw [if_neg hr]
    by_cases hu : b.is "unique" = true
    · rw [if_pos hu, Naming.ofExcept_apply]
      exact ((fails_declareUnique _ _ hu m.relations).mono fun e he => ⟨he.1, hback _ he.2⟩).map
    · rw [if_neg hu]
      exact .ok

theorem fails_declareShorthand (a : Attribute) (arg : Argument) (hm : OfModel n ms es m r) :
    FailsWith (a.declareShorthand (modelName ms.length) arg r)
      (Fault.On (some a.span.line) fun cause => ∃ defect, cause = .malformed "@@unique" defect) := by
  unfold declareShorthand
  cases arg.name with
  | none => exact .ok
  | some name =>
    dsimp only
    split
    · cases arg.value.string? with
      | none => exact .error ⟨rfl, _, rfl⟩
      | some old =>
        obtain ⟨env, rfl⟩ := hm
        dsimp only
        rw [Naming.bind_apply, Naming.register, Outline.ensureField_last]
        exact .ok
    · exact .error ⟨rfl, _, rfl⟩

/-- The name of a unique key is never a duplicate. -/
theorem fails_declareOnModel (a : Attribute) (hm : OfModel n ms es m r) :
    FailsWith (a.declareOnModel (modelName ms.length) r) (Fault.On (some a.span.line) fun cause =>
      (∃ defect, cause = .malformed "@@unique" defect) ∧
        ¬(a.is "unique" = true → a.UniqueOnModel)) := by
  have hfails : FailsWith (a.declareOnModel (modelName ms.length) r)
      (Fault.On (some a.span.line) fun cause => ∃ defect, cause = .malformed "@@unique" defect) := by
    have hm' := hm.numberEnv (a.numberEnv r.envVars).2
    rw [declareOnModel, Naming.numberEnv_bind]
    split
    · rw [Naming.bind_apply]
      refine (FailsWith.mapM_naming (R := OfModel n ms es)
        (g := fun m (arg : Argument) => m.addKeys arg.keyName?.toList)
        (fun before arg after r _ hr => ⟨fails_declareShorthand _ arg hr, fun p hp => ?_⟩) _ hm').map
      exact ((meets_declareShorthand _ arg hr (.refl _)).of_ok hp).2.2
    · exact .ok
  exact hfails.of_meets (meets_declareOnModel a hm (.refl _)) fun e hshape he => ⟨he.1, he.2, hshape⟩

end Attribute

/-! ### Declaring models and enums -/

/-- The attributes of a field, in a model that has these relations. -/
theorem Field.fails_attributes (f : Field) {m : ModelOutline} {field : String}
    (hm : OfModel n ms es m r) :
    FailsWith (f.attributes.mapM (·.declareOnField (modelName ms.length) field) r)
      fun e => ∃ earlier a later, f.attributes = earlier ++ a :: later ∧ e.On (some a.span.line)
        (a.Misdeclares (m.relations ++ earlier.filterMap (·.declaredRelation?))) := by
  refine FailsWith.mapM_naming (R := OfModel n ms es)
    (g := fun m (a : Attribute) => m.addRelations a.declaredRelation?.toList)
    (fun earlier a later r hl hr => ⟨?_, fun p hp => ?_⟩) r hm
  · refine (a.fails_declareOnField hr).mono fun e he => ⟨earlier, a, later, hl, ?_⟩
    rwa [ModelOutline.addRelations_foldl] at he
  · exact ((Attribute.meets_declareOnField a hr (.refl _)).of_ok hp).2.2

theorem ModelMember.fails_declare (member : ModelMember) {m : ModelOutline}
    (hm : OfModel n ms es m r) : FailsWith (member.declare (modelName ms.length) r)
      (Fault.At (member.Misdeclares m.keys m.relations)) := by
  cases member with
  | field f =>
    rw [declare, Naming.map_apply]
    refine FailsWith.map ?_
    obtain ⟨env, rfl⟩ := hm
    rw [Field.declare, Naming.bind_apply, Naming.register, Outline.registerField_last]
    by_cases hx : f.name.name ∈ m.keys
    · rw [if_pos hx]
      exact .error ⟨f.name.extent, .field _ hx, rfl⟩
    · rw [if_neg hx]
      refine ((f.fails_attributes ⟨env, rfl⟩).mono fun e he => ?_).map
      obtain ⟨earlier, a, later, hl, hline, hcause⟩ := he
      rw [ModelOutline.addKey_relations] at hcause
      exact ⟨a.extent "@", .onField hl hcause, hline⟩
  | blockAttribute a =>
    rw [declare, Naming.bind_apply]
    refine ((a.attr.fails_declareOnModel hm).mono fun e he => ?_).map
    obtain ⟨hline, ⟨defect, hcause⟩, hshape⟩ := he
    refine ⟨a.attr.extent "@@", ?_, hline⟩
    rw [hcause]
    obtain ⟨hu, hshape⟩ := Classical.not_imp.mp hshape
    exact .onModel defect hu hshape
  | comment c => exact .ok

theorem Model.fails_declare (m : Model) {o : Outline} (hr : OfOutline n o r) :
    FailsWith (m.declare r) (Fault.At ((Declaration.model m).Misdeclares o.typeNames)) := by
  have hregister : FailsWith (Fault.locate m.name.span.line (r.attempt (Registry.registerModel m.name.name)))
      (Fault.At ((Declaration.model m).Misdeclares o.typeNames)) := by
    obtain ⟨env, rfl⟩ := hr
    rw [Outline.registerModel_registry]
    split
    · rename_i hx
      exact .error ⟨m.name.extent, .model (List.mem_append.mpr hx), rfl⟩
    · exact .ok
  rw [declare, Naming.bind_apply]
  refine FailsWith.bind hregister fun p hp => ?_
  obtain ⟨new, r'⟩ := p
  obtain ⟨-, rfl, hr'⟩ := ((meets_register hr m.name.name).locate _).of_ok hp
  refine (FailsWith.mapM_naming (R := OfModel n o.models o.enums) (g := ModelOutline.addMember)
    (fun before member after r hl hr => ⟨?_, fun p hp => ?_⟩) r' hr').map
  · refine (member.fails_declare hr).mono fun e he => he.mono fun cause x hx => .member hl ?_
    have hkeys : ∀ key, key ∈ (before.foldl ModelOutline.addMember ⟨m.name.name, [], []⟩).keys →
        key ∈ before.flatMap (·.keyNames) := by
      intro key hkey
      exact ((mem_keys_foldl before _).mp hkey).resolve_left List.not_mem_nil
    have hrelations : (before.foldl ModelOutline.addMember ⟨m.name.name, [], []⟩).relations =
        before.flatMap (·.relationNames) := relations_foldl before _
    rw [hrelations] at hx
    cases hx with
    | field scope again => exact .field scope (hkeys _ again)
    | onField split h => exact .onField split h
    | onModel defect hu hshape => exact .onModel defect hu hshape
  · exact ((member.meets_declare hr (.refl _)).of_ok hp).2.2

theorem EnumMember.fails_declare (member : EnumMember) {u : EnumOutline}
    (hr : OfEnum n ms es u r) : FailsWith (member.declare (enumName es.length) r)
      fun e => ∃ v scope, member = .value v ∧ v.name.name ∈ u.values ∧
        e = ⟨.duplicate .enumValue v.name.name scope, some v.name.span.line⟩ := by
  cases member with
  | value v =>
    rw [declare, Naming.map_apply]
    refine FailsWith.map ?_
    obtain ⟨⟨env, rfl⟩, hbase⟩ := hr
    rw [EnumValue.declare, Naming.bind_apply, Naming.register, Outline.registerValue_last hbase]
    by_cases hx : v.name.name ∈ u.values
    · rw [if_pos hx]
      exact .error ⟨v, _, rfl, hx, rfl⟩
    · rw [if_neg hx]
      refine FailsWith.map
        (Meets.fails (Meets.mapM_keeping (R := fun _ => True) ?_ v.attributes trivial))
      exact fun a r _ => Meets.ok trivial trivial
  | blockAttribute a => exact .ok
  | comment c => exact .ok

theorem Enum.fails_declare (e : Enum) {o : Outline} (hr : OfOutline n o r) :
    FailsWith (e.declare r) (Fault.At ((Declaration.enum e).Misdeclares o.typeNames)) := by
  have hregister : FailsWith (Fault.locate e.name.span.line (r.attempt (Registry.registerEnum e.name.name)))
      (Fault.At ((Declaration.enum e).Misdeclares o.typeNames)) := by
    obtain ⟨env, rfl⟩ := hr
    rw [Outline.registerEnum_registry]
    split
    · rename_i hx
      exact .error ⟨e.name.extent, .enum (List.mem_append.mpr hx), rfl⟩
    · exact .ok
  rw [declare, Naming.bind_apply]
  refine FailsWith.bind hregister fun p hp => ?_
  obtain ⟨new, r'⟩ := p
  obtain ⟨-, rfl, hr'⟩ := ((meets_register hr e.name.name).locate _).of_ok hp
  refine (FailsWith.mapM_naming (R := OfEnum n o.models o.enums)
    (g := fun u member => u.addValues member.valueName?.toList)
    (fun before member after r hl hr => ⟨?_, fun p hp => ?_⟩) r' hr').map
  · refine (member.fails_declare hr).mono ?_
    rintro _ ⟨v, scope, rfl, hx, rfl⟩
    rw [EnumOutline.addValues_foldl] at hx
    have hbefore := (List.mem_append.mp hx).resolve_left List.not_mem_nil
    exact ⟨v.name.extent, .value scope hl hbefore, rfl⟩
  · exact ((member.meets_declare hr (.refl _)).of_ok hp).2.2

theorem Declaration.fails_declare (d : Declaration) {o : Outline} (hr : OfOutline n o r) :
    FailsWith (d.declare r) (Fault.At (d.Misdeclares o.typeNames)) := by
  cases d with
  | model m =>
    rw [declare, Naming.map_apply]
    exact (m.fails_declare hr).map
  | enum e =>
    rw [declare, Naming.map_apply]
    exact (e.fails_declare hr).map
  | config b =>
    rw [declare, Naming.map_apply]
    exact (b.meets_declare hr).fails.map
  | comments b => exact .ok

theorem Declaration.Misdeclares.mono {names names' : List String} {d : Declaration} {cause : Cause}
    {x : Extent} (h : d.Misdeclares names cause x) (hnames : ∀ name ∈ names, name ∈ names') :
    d.Misdeclares names' cause x := by
  cases h with
  | model again => exact .model (hnames _ again)
  | enum again => exact .enum (hnames _ again)
  | member split h => exact .member split h
  | value scope split again => exact .value scope split again

/-- The first step fails at what is wrong with a declaration. -/
theorem Schema.fails_declare_at (n : Numbering) (s : Schema) :
    FailsWith (s.declare (.new n)) (Fault.At s.Misdeclares) := by
  rw [declare, Naming.bind_apply]
  refine (FailsWith.mapM_naming (R := OfOutline n) (g := Outline.addDeclaration n) (u := .empty)
    (fun before d after r hl hr => ⟨?_, fun p hp => ?_⟩) _
    ⟨0, (Outline.registry_empty n).symm⟩).map
  · refine (d.fails_declare hr).mono fun e he => he.mono fun cause x hx => ?_
    refine ⟨before, d, after, hl, hx.mono fun name hname => ?_⟩
    exact (mem_typeNames (s := ⟨before⟩) (n := n)).mpr (List.mem_append.mp hname)
  · exact ((d.meets_declare hr (.refl _)).of_ok hp).2.2

/-! ### Resolving references -/

namespace Attribute

theorem face_span (a : Attribute) : a.face.span = a.span := by
  unfold face
  split
  · rfl
  · split <;> rfl

/-- An attribute of a field stands where it stood before the first step. -/
theorem Declared.same_place {full : ModelOutline} {i : Nat} {a b : Attribute}
    (h : Declared full i a b) : b.name = a.name ∧ b.span = a.span := by
  have hname := congrArg Attribute.name h.face
  have hspan := congrArg Attribute.span h.face
  rw [face_name, face_name] at hname
  rw [face_span, face_span] at hspan
  exact ⟨hname, hspan⟩

/-- An attribute of a model stands where it stood before the first step. -/
theorem KeysDeclared.same_place {full : ModelOutline} {a b : Attribute}
    (h : KeysDeclared full a b) : b.name = a.name ∧ b.span = a.span := by
  have hname := congrArg Attribute.name h.face
  have hspan := congrArg Attribute.span h.face
  exact ⟨hname, hspan⟩

end Attribute

variable {s : Schema} {m : Model} {k : Nat}

theorem FieldType.fails_resolve (type : FieldType) (hr : OfOutline n (s.outline n) r) :
    FailsWith (type.resolve r) fun e => ∃ i, type = .named i ∧ i.name ∉ s.typeNames ∧
      e = ⟨.unresolved .modelOrEnum i.name none, some i.span.line⟩ := by
  intro e he
  have hmissing := (type.meets_resolve hr).of_error he
  cases type with
  | scalar type => cases he
  | unsupported text => cases he
  | named i =>
    by_cases hu : i.name = "Unsupported"
    · simp [resolve, hu] at he
    · rw [resolve, if_neg (by simpa using hu)] at he
      obtain ⟨hline, hcause⟩ := ((r.fails_resolveType i.name).map.locate i.span.line) e he
      refine ⟨i, rfl, fun hname => hmissing fun name hi => ?_, ?_⟩
      · have heq : i.name = name := by simpa [typeName?, hu] using hi
        rw [← heq]
        exact Schema.mem_typeNames.mp hname
      · rw [← hcause, ← hline]

theorem Field.fails_resolve (h : s.typeNames.Nodup) (hr : OfOutline n (s.outline n) r)
    (hk : (s.outline n).models[k]? = some m.outline) {f g : Field}
    (hd : Declared m.outline k f g) :
    FailsWith (g.resolve r (modelName k))
      (Fault.At ((ModelMember.field f).Misrefers s m)) := by
  unfold resolve
  rw [hd.type]
  refine FailsWith.bind ((f.type.fails_resolve hr).mono ?_) fun type htype => ?_
  · rintro _ ⟨i, hi, hmissing, rfl⟩
    exact ⟨i.extent, .type hi hmissing, rfl⟩
  · have hresolved := ((f.type.meets_resolve hr).of_ok htype).2
    have hscopes := Schema.translates_newScopes h hr hk hresolved g.name.name
    refine (FailsWith.mapM_forall₂ (forall₂_mem hd.attributes) fun a _ b hb => ?_).map
    obtain ⟨ha, hb⟩ := hb
    obtain ⟨hname, hspan⟩ := hb.same_place
    refine (b.fails_resolveOnField r _).of_meets
      (Attribute.meets_resolveDeclared hresolved.scalar? hscopes hb) fun e hunfit he => ?_
    obtain ⟨hline, hcause⟩ := he
    rw [hname] at hcause
    rw [hspan] at hline
    exact ⟨a.extent "@", .onField ha hcause hunfit, hline⟩

theorem ModelMember.fails_resolveEach (h : s.typeNames.Nodup) (hr : OfOutline n (s.outline n) r)
    (hk : (s.outline n).models[k]? = some m.outline) {members members' : List ModelMember}
    (hd : List.Forall₂ (Declared m.outline k) members members') : ∀ number,
    FailsWith (resolveEach r (modelName k) number members')
      (Fault.At fun cause x => ∃ member ∈ members, member.Misrefers s m cause x) := by
  induction hd with
  | nil => exact fun _ => .ok
  | @cons member member' rest rest' hmember _ ih =>
    intro number
    have hhead : ∀ e : Fault, e.At (member.Misrefers s m) →
        e.At fun cause x => ∃ line ∈ member :: rest, line.Misrefers s m cause x :=
      fun e he => he.mono fun cause x hx => ⟨member, List.mem_cons_self, hx⟩
    have hrest : ∀ number, FailsWith (resolveEach r (modelName k) number rest')
        (Fault.At fun cause x => ∃ line ∈ member :: rest, line.Misrefers s m cause x) := by
      refine fun number => (ih number).mono fun e he => he.mono ?_
      rintro cause x ⟨line, hline, hx⟩
      exact ⟨line, List.mem_cons_of_mem _ hline, hx⟩
    cases hmember with
    | field hf =>
      refine ((Field.fails_resolve h hr hk hf).mono hhead).bind fun _ _ => ?_
      exact (hrest number).map
    | @blockAttribute a b ha =>
      obtain ⟨hname, hspan⟩ := ha.same_place
      have hkeys := Model.translates_keys hr hk
      refine FailsWith.bind ?_ fun _ _ => (hrest _).map
      refine (b.attr.fails_resolveOnModel r (modelName k) number).of_meets
        (Attribute.meets_resolveKeysDeclared hkeys number ha) fun e hunfit he => hhead e ?_
      obtain ⟨hline, hcause⟩ := he
      rw [hname] at hcause
      rw [hspan] at hline
      exact ⟨a.attr.extent "@@", .onModel hcause hunfit, hline⟩
    | comment c d => exact (hrest number).map

/-- The second step fails at what is wrong with a reference. -/
theorem Schema.fails_resolve_at (h : s.typeNames.Nodup) (hr : OfOutline n (s.outline n) r)
    {t : Schema}
    (hd : List.Forall₂ (Declaration.Declared (s.outline n)) s.declarations t.declarations) :
    FailsWith (t.resolve r) (Fault.At s.Misrefers) := by
  refine (FailsWith.mapM_forall₂ hd fun d hmem d' hdeclared => ?_).map
  cases hdeclared with
  | @model m m' hm =>
    have hwalk := ModelMember.fails_resolveEach h hr hm.outline hm.members 0
    rw [← hm.name] at hwalk
    refine (hwalk.map.mono fun e he => he.mono fun cause x hx => ?_).map
    exact ⟨m, mem_models.mpr hmem, hx⟩
  | enum he => exact .ok
  | config b b' => exact .ok
  | comments b b' => exact .ok

/-- **Every fault has a line.** An obfuscation that fails does so at a part of the schema that is
to blame, and the line of the fault is the line of this part. -/
theorem Schema.fails_obfuscate_at (n : Numbering) (s : Schema) :
    FailsWith (s.obfuscate n) (Fault.At fun cause x => s.Misdeclares cause x ∨ s.Misrefers cause x) := by
  refine FailsWith.bind ((s.fails_declare_at n).mono fun e he => he.mono fun _ _ => .inl) ?_
  intro p hp
  obtain ⟨⟨hnodup, -⟩, hdeclared, hr⟩ := (s.meets_declare n).of_ok hp
  exact ((fails_resolve_at hnodup hr hdeclared).mono fun e he => he.mono fun _ _ => .inr).map

end Pseudonym

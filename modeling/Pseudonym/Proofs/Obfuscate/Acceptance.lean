/-
# Which schemas are obfuscated

A schema is obfuscated exactly if it is `Accepted`: the conditions of both
steps, which look names up in a registry, come down to conditions on the
schema alone. The result is bound like the schema itself: every name has its
new name, and every reference is to the place it was to before.

Key definitions: `Field.Bound`, `ModelMember.Bound`, `Schema.Bound`.
-/
import Pseudonym.Proofs.Obfuscate.NewScopes
import Pseudonym.Obfuscate.Basic

namespace Pseudonym

variable {n : Numbering} {s : Schema} {m : Model} {k : Nat} {r : Registry}

/-! ### Fields -/

/-- An attribute of a field of the `k`-th model, and the attribute that it becomes. -/
structure Attribute.Bound (full : ModelOutline) (k : Nat) (sc sc' : FieldScopes)
    (a b : Attribute) : Prop where
  relation : b.declaredRelation? = a.declaredRelation?.map (full.newRelation k)
  places : b.places sc' = a.places sc

theorem Attribute.meets_resolveDeclared {full : ModelOutline} {site : FieldSite}
    {type : FieldType} {sc sc' : FieldScopes} (htype : site.type.scalar? = type.scalar?)
    (h : sc.Translates r site sc') {a b : Attribute} (hd : Declared full k a b) :
    Meets (b.resolveOnField r site) (a.SuitsField type sc) (Bound full k sc sc' a) := by
  refine (meets_resolveOnField htype h b).congr ?_ fun _ c hc => ⟨?_, ?_⟩
  · rw [← suitsField_face b, hd.face, suitsField_face]
  · rw [hc.declared, hd.relation]
  · rw [hc.places, ← places_face b, hd.face, places_face]

namespace Field

/-- A field of the `k`-th model, and the field that it becomes. -/
structure Bound (n : Numbering) (s : Schema) (m : Model) (k : Nat) (f g : Field) : Prop where
  name : g.name.name = m.outline.newKey f.name.name
  type : f.type.Resolved (s.outline n) g.type
  attributes : List.Forall₂
    (Attribute.Bound m.outline k (s.scopesAt m f.type) (s.newScopes n m f.type))
    f.attributes g.attributes

/-- The references of a field are to something that is declared. -/
def Suits (s : Schema) (m : Model) (f : Field) : Prop :=
  (∀ name, f.type.typeName? = some name → name ∈ s.typeNames) ∧
    ∀ a ∈ f.attributes, a.SuitsField f.type (s.scopesAt m f.type)

theorem meets_resolve (h : s.typeNames.Nodup) (hr : OfOutline n (s.outline n) r)
    (hk : (s.outline n).models[k]? = some m.outline) {f g : Field}
    (hd : Declared m.outline k f g) :
    Meets (g.resolve r (modelName k)) (f.Suits s m) (Bound n s m k f) := by
  unfold resolve Suits
  rw [hd.type]
  simp only [Schema.mem_typeNames (n := n)]
  refine (f.type.meets_resolve hr).bind fun _ type htype => ?_
  have hscopes := Schema.translates_newScopes h hr hk htype g.name.name
  refine (Meets.mapM_forall₂ hd.attributes fun a _ b hb =>
    Attribute.meets_resolveDeclared htype.scalar? hscopes hb).map fun _ attributes ha => ?_
  exact ⟨hd.name, htype, ha⟩

end Field

/-! ### Models -/

theorem Attribute.meets_resolveKeysDeclared {full : ModelOutline} {model : String}
    {old new : List String} (h : Translates (r.resolveField model) old new) (number : Nat)
    {a b : Attribute} (hd : KeysDeclared full a b) :
    Meets (b.resolveOnModel r model number) (a.SuitsModel old) fun c =>
      c.keyNames = a.keyNames.map full.newKey ∧ c.keyPlaces new = a.keyPlaces old := by
  refine (meets_resolveOnModel h number b).congr ?_ fun _ c hc => ⟨?_, ?_⟩
  · rw [← suitsModel_keyFace b, hd.face, suitsModel_keyFace]
  · rw [hc.names, hd.names]
  · rw [hc.places, ← keyPlaces_keyFace b, hd.face, keyPlaces_keyFace]

namespace ModelMember

/-- A line of the `k`-th model, and the line that it becomes. -/
inductive Bound (n : Numbering) (s : Schema) (m : Model) (k : Nat) :
    ModelMember → ModelMember → Prop
  | field {f g : Field} (h : Field.Bound n s m k f g) : Bound n s m k (.field f) (.field g)
  | blockAttribute {a b : BlockAttribute}
    (names : b.attr.keyNames = a.attr.keyNames.map m.outline.newKey)
    (places : b.attr.keyPlaces (m.keyNames.map m.outline.newKey) = a.attr.keyPlaces m.keyNames) :
    Bound n s m k (.blockAttribute a) (.blockAttribute b)
  | comment (c d : Comment) : Bound n s m k (.comment c) (.comment d)

/-- The references on a line of a model are to something that is declared. -/
def Suits (s : Schema) (m : Model) : ModelMember → Prop
  | .field f => f.Suits s m
  | .blockAttribute a => a.attr.SuitsModel m.keyNames
  | .comment _ => True

theorem meets_resolveEach (h : s.typeNames.Nodup) (hr : OfOutline n (s.outline n) r)
    (hk : (s.outline n).models[k]? = some m.outline) {members members' : List ModelMember}
    (hd : List.Forall₂ (Declared m.outline k) members members') : ∀ number,
    Meets (resolveEach r (modelName k) number members') (∀ member ∈ members, member.Suits s m)
      (List.Forall₂ (Bound n s m k) members) := by
  induction hd with
  | nil => exact fun _ => Meets.ok (by simp) .nil
  | cons hmember _ ih =>
    intro number
    rw [List.forall_mem_cons]
    cases hmember with
    | field hf =>
      refine (Field.meets_resolve h hr hk hf).bind fun _ g hg => ?_
      exact (ih number).map fun _ rest hrest => .cons (.field hg) hrest
    | blockAttribute ha =>
      have hkeys := Model.translates_keys hr hk
      refine (Attribute.meets_resolveKeysDeclared hkeys number ha).bind fun _ c hc => ?_
      exact (ih _).map fun _ rest hrest => .cons (.blockAttribute hc.1 hc.2) hrest
    | comment c d =>
      refine ((ih number).map fun _ rest hrest => .cons (.comment c d) hrest).congr ?_ fun _ _ => id
      exact (true_and _).symm.to_iff

end ModelMember

namespace Model

/-- A model, and the model that it becomes. -/
structure Bound (n : Numbering) (s : Schema) (m m' : Model) : Prop where
  name : m'.name.name = modelName ((s.outline n).modelNames.idxOf m.name.name)
  members : List.Forall₂ (ModelMember.Bound n s m ((s.outline n).modelNames.idxOf m.name.name))
    m.members m'.members

theorem meets_resolve (h : s.typeNames.Nodup) (hr : OfOutline n (s.outline n) r) {m m' : Model}
    (hd : Declared (s.outline n) m m') :
    Meets (m'.resolve r) (∀ member ∈ m.members, member.Suits s m) (Bound n s m) := by
  have hwalk := ModelMember.meets_resolveEach h hr hd.outline hd.members 0
  rw [← hd.name] at hwalk
  exact hwalk.map fun _ members hmembers => ⟨hd.name, hmembers⟩

/-- What holds of the lines of a model holds of its fields and of its attributes. -/
theorem forall_members {P : ModelMember → Prop} {F : Field → Prop} {A : Attribute → Prop}
    (hfield : ∀ f, P (.field f) ↔ F f) (hattribute : ∀ a, P (.blockAttribute a) ↔ A a.attr)
    (hcomment : ∀ c, P (.comment c)) (m : Model) :
    (∀ member ∈ m.members, P member) ↔ (∀ f ∈ m.fields, F f) ∧ ∀ a ∈ m.attributes, A a := by
  rw [fields, attributes]
  induction m.members with
  | nil => simp
  | cons member rest ih =>
    rw [List.forall_mem_cons, ih]
    cases member with
    | field f => simp [ModelMember.field?, ModelMember.attribute?, hfield, and_assoc]
    | blockAttribute a =>
      simp [ModelMember.field?, ModelMember.attribute?, hattribute, and_left_comm]
    | comment c => simp [ModelMember.field?, ModelMember.attribute?, hcomment]

end Model

/-! ### Schemas -/

namespace Declaration

/-- A declaration, and the declaration that it becomes. -/
inductive Bound (n : Numbering) (s : Schema) : Declaration → Declaration → Prop
  | model {m m' : Model} (h : Model.Bound n s m m') : Bound n s (.model m) (.model m')
  | enum {e e' : Enum} (h : Enum.Declared (s.outline n) e e') : Bound n s (.enum e) (.enum e')
  | config (b b' : ConfigBlock) : Bound n s (.config b) (.config b')
  | comments (b b' : CommentBlock) : Bound n s (.comments b) (.comments b')

/-- The references of a declaration are to something that is declared. -/
def Suits (s : Schema) : Declaration → Prop
  | .model m => ∀ member ∈ m.members, member.Suits s m
  | .enum _ => True
  | .config _ => True
  | .comments _ => True

theorem meets_resolve (h : s.typeNames.Nodup) (hr : OfOutline n (s.outline n) r)
    {d d' : Declaration} (hd : Declared (s.outline n) d d') :
    Meets (d'.resolve r) (d.Suits s) (Bound n s d) := by
  cases hd with
  | model hm => exact (Model.meets_resolve h hr hm).map fun _ m hb => .model hb
  | enum he => exact Meets.ok trivial (.enum he)
  | config b b' => exact Meets.ok trivial (.config b b')
  | comments b b' => exact Meets.ok trivial (.comments b b')

end Declaration

namespace Schema

/-- A schema, and the schema that it becomes. -/
def Bound (n : Numbering) (s t : Schema) : Prop :=
  List.Forall₂ (Declaration.Bound n s) s.declarations t.declarations

/-- What holds of the declarations of a schema holds of its models and of its enums. -/
theorem forall_declarations {P : Declaration → Prop} {M : Model → Prop} {E : Enum → Prop}
    (hmodel : ∀ m, P (.model m) ↔ M m) (henum : ∀ e, P (.enum e) ↔ E e)
    (hconfig : ∀ b, P (.config b)) (hcomments : ∀ b, P (.comments b)) (s : Schema) :
    (∀ d ∈ s.declarations, P d) ↔ (∀ m ∈ s.models, M m) ∧ ∀ e ∈ s.enums, E e := by
  rw [models, enums]
  induction s.declarations with
  | nil => simp
  | cons d ds ih =>
    rw [List.forall_mem_cons, ih]
    cases d with
    | model m => simp [Declaration.model?, Declaration.enum?, hmodel, and_assoc]
    | enum e => simp [Declaration.model?, Declaration.enum?, henum, and_left_comm]
    | config b => simp [Declaration.model?, Declaration.enum?, hconfig]
    | comments b => simp [Declaration.model?, Declaration.enum?, hcomments]

/-- The conditions of the two steps are those of an accepted schema. -/
theorem accepted_iff (s : Schema) :
    (s.typeNames.Nodup ∧ ∀ d ∈ s.declarations, d.Declarable) ∧ (∀ d ∈ s.declarations, d.Suits s) ↔
      s.Accepted := by
  have hdeclare : (∀ d ∈ s.declarations, d.Declarable) ↔
      (∀ m ∈ s.models, m.Declarable) ∧ ∀ e ∈ s.enums, e.valueNames.Nodup :=
    forall_declarations (fun _ => Iff.rfl) (fun _ => Iff.rfl) (fun _ => trivial) (fun _ => trivial) s
  have hsuits : (∀ d ∈ s.declarations, d.Suits s) ↔
      (∀ m ∈ s.models, ∀ member ∈ m.members, member.Suits s m) ∧ ∀ e ∈ s.enums, True :=
    forall_declarations (fun _ => Iff.rfl) (fun _ => Iff.rfl) (fun _ => trivial) (fun _ => trivial) s
  have hshaped : ∀ m : Model, (∀ member ∈ m.members, member.Shaped) ↔
      (∀ f ∈ m.fields, f.Shaped) ∧
        ∀ a ∈ m.attributes, a.is "unique" = true → a.UniqueOnModel :=
    Model.forall_members (fun _ => Iff.rfl) (fun _ => Iff.rfl) fun _ => trivial
  have hmembers : ∀ m : Model, (∀ member ∈ m.members, member.Suits s m) ↔
      (∀ f ∈ m.fields, f.Suits s m) ∧ ∀ a ∈ m.attributes, a.SuitsModel m.keyNames :=
    fun m => Model.forall_members (fun _ => Iff.rfl) (fun _ => Iff.rfl) (fun _ => trivial) m
  rw [hdeclare, hsuits]
  simp only [hmembers]
  constructor
  · rintro ⟨⟨htypes, hmodels, henums⟩, hrefs, -⟩
    exact
      { types := htypes
        values := henums
        fields := fun m hm => (hmodels m hm).fields
        relations := fun m hm => (hmodels m hm).relations
        uniqueOnField := fun m hm => ((hshaped m).mp (hmodels m hm).shaped).1
        uniqueOnModel := fun m hm => ((hshaped m).mp (hmodels m hm).shaped).2
        fieldTypes := fun m hm f hf => ((hrefs m hm).1 f hf).1
        defaults := fun m hm f hf a ha => (((hrefs m hm).1 f hf).2 a ha).1
        relationArgs := fun m hm f hf a ha => (((hrefs m hm).1 f hf).2 a ha).2
        indexes := fun m hm a ha => ((hrefs m hm).2 a ha).1
        ids := fun m hm a ha => ((hrefs m hm).2 a ha).2.1
        uniqueLists := fun m hm a ha => ((hrefs m hm).2 a ha).2.2 }
  · intro h
    refine ⟨⟨h.types, fun m hm => ⟨h.fields m hm, h.relations m hm, ?_⟩, h.values⟩,
      fun m hm => ⟨fun f hf => ⟨h.fieldTypes m hm f hf, fun a ha => ?_⟩, fun a ha => ?_⟩,
      fun _ _ => trivial⟩
    · exact (hshaped m).mpr ⟨h.uniqueOnField m hm, h.uniqueOnModel m hm⟩
    · exact ⟨h.defaults m hm f hf a ha, h.relationArgs m hm f hf a ha⟩
    · exact ⟨h.indexes m hm a ha, h.ids m hm a ha, h.uniqueLists m hm a ha⟩

/-- **Both steps.** An obfuscation succeeds exactly on accepted schemas, and every declaration of
its result is bound like the one it comes from. -/
theorem meets_obfuscate (n : Numbering) (s : Schema) :
    Meets (s.obfuscate n) s.Accepted fun p => Bound n s p.1 := by
  refine ((s.meets_declare n).bind fun hdeclarable p hp => ?_).congr s.accepted_iff fun _ _ => id
  obtain ⟨declared, r⟩ := p
  have hresolve : Meets (declared.resolve r) (∀ d ∈ s.declarations, d.Suits s) (Bound n s) :=
    (Meets.mapM_forall₂ hp.1 fun d _ d' hd =>
      Declaration.meets_resolve hdeclarable.1 hp.2 hd).map fun _ _ hbound => hbound
  exact hresolve.map fun _ t hbound => hbound

/-- **Exact acceptance.** Whatever the numbering of values, an obfuscation succeeds if and only
if the schema satisfies the conditions of `Accepted`, which mention no registry. -/
theorem obfuscate_succeeds_iff (n : Numbering) (s : Schema) :
    (∃ p, s.obfuscate n = .ok p) ↔ s.Accepted :=
  (s.meets_obfuscate n).iff

end Schema

end Pseudonym

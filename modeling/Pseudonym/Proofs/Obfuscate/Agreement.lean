/-
# Schemas that agree in their names

Two schemas agree if they declare the same names in the same order, and what
one of them refers to can be followed wherever the other's can. Comments,
blocks of configuration, and whatever else is neither declared nor referred to
may differ or be missing. Schemas that agree have the same outline, and both
can be obfuscated or neither.
-/
import Pseudonym.Proofs.Obfuscate.Bindings
import Pseudonym.Proofs.Obfuscate.Texts

namespace Pseudonym

/-! ### Lists that match -/

/-- Two lists match up to items that do not count. -/
inductive Matches {α : Type} (R : α → α → Prop) (skip : α → Prop) : List α → List α → Prop
  | nil : Matches R skip [] []
  | cons {a b : α} {l l' : List α} (hab : R a b) (h : Matches R skip l l') :
    Matches R skip (a :: l) (b :: l')
  | left {a : α} {l l' : List α} (ha : skip a) (h : Matches R skip l l') : Matches R skip (a :: l) l'
  | right {b : α} {l l' : List α} (hb : skip b) (h : Matches R skip l l') :
    Matches R skip l (b :: l')

namespace Matches

variable {α β σ : Type} {R : α → α → Prop} {skip : α → Prop} {l l' : List α}

theorem of_forall₂ {S : α → α → Prop} (h : List.Forall₂ S l l')
    (hS : ∀ a b, S a b → R a b ∨ skip a ∧ skip b) : Matches R skip l l' := by
  induction h with
  | nil => exact .nil
  | cons hab _ ih =>
    rcases hS _ _ hab with hab | ⟨ha, hb⟩
    · exact .cons hab ih
    · exact .left ha (.right hb ih)

theorem of_filterMap {f : α → Option α} (hnone : ∀ a, f a = none → skip a)
    (hsome : ∀ a b, f a = some b → R a b ∨ skip a ∧ skip b) :
    ∀ l : List α, Matches R skip l (l.filterMap f)
  | [] => .nil
  | a :: l => by
    rw [List.filterMap_cons]
    cases ha : f a with
    | none => exact .left (hnone a ha) (of_filterMap hnone hsome l)
    | some b =>
      rcases hsome a b ha with hab | ⟨ha, hb⟩
      · exact .cons hab (of_filterMap hnone hsome l)
      · exact .left ha (.right hb (of_filterMap hnone hsome l))

theorem flatMap_eq (h : Matches R skip l l') {f : α → List β} (hR : ∀ a b, R a b → f b = f a)
    (hskip : ∀ a, skip a → f a = []) : l'.flatMap f = l.flatMap f := by
  induction h with
  | nil => rfl
  | cons hab _ ih => rw [List.flatMap_cons, List.flatMap_cons, hR _ _ hab, ih]
  | left ha _ ih => rw [List.flatMap_cons, hskip _ ha, ih, List.nil_append]
  | right hb _ ih => rw [List.flatMap_cons, hskip _ hb, ih, List.nil_append]

theorem foldl_eq (h : Matches R skip l l') {f : σ → α → σ} (hR : ∀ u a b, R a b → f u b = f u a)
    (hskip : ∀ u a, skip a → f u a = u) (u : σ) : l'.foldl f u = l.foldl f u := by
  induction h generalizing u with
  | nil => rfl
  | cons hab _ ih => rw [List.foldl_cons, List.foldl_cons, hR _ _ _ hab, ih]
  | left ha _ ih => rw [List.foldl_cons, hskip _ _ ha, ih]
  | right hb _ ih => rw [List.foldl_cons, hskip _ _ hb, ih]

theorem forall₂_filterMap (h : Matches R skip l l') {S : β → β → Prop} {f : α → Option β}
    (hR : ∀ a b, R a b → (f a = none ∧ f b = none) ∨ ∃ c d, f a = some c ∧ f b = some d ∧ S c d)
    (hskip : ∀ a, skip a → f a = none) : List.Forall₂ S (l.filterMap f) (l'.filterMap f) := by
  induction h with
  | nil => exact .nil
  | cons hab _ ih =>
    rw [List.filterMap_cons, List.filterMap_cons]
    obtain ⟨hf, hg⟩ | ⟨c, d, hf, hg, hcd⟩ := hR _ _ hab
    · rw [hf, hg]
      exact ih
    · rw [hf, hg]
      exact .cons hcd ih
  | left ha _ ih => rwa [List.filterMap_cons_none (hskip _ ha)]
  | right hb _ ih => rwa [List.filterMap_cons_none (hskip _ hb)]

theorem forall_iff (h : Matches R skip l l') {P Q : α → Prop} (hR : ∀ a b, R a b → (Q b ↔ P a))
    (hP : ∀ a, skip a → P a) (hQ : ∀ b, skip b → Q b) : (∀ b ∈ l', Q b) ↔ ∀ a ∈ l, P a := by
  induction h with
  | nil => simp
  | cons hab _ ih => rw [List.forall_mem_cons, List.forall_mem_cons, hR _ _ hab, ih]
  | left ha _ ih => simp [ih, hP _ ha]
  | right hb _ ih => simp [ih, hQ _ hb]

theorem along_iff (h : Matches R skip l l') {next : σ → α → σ} {P : σ → α → Prop}
    (hnext : ∀ u a b, R a b → next u b = next u a) (hR : ∀ u a b, R a b → (P u b ↔ P u a))
    (hskip : ∀ u a, skip a → next u a = u ∧ P u a) (u : σ) :
    Along next P u l' ↔ Along next P u l := by
  induction h generalizing u with
  | nil => exact Iff.rfl
  | cons hab _ ih => rw [Along, Along, hnext _ _ _ hab, hR _ _ _ hab, ih]
  | left ha _ ih =>
    rw [Along, (hskip u _ ha).1, ih]
    exact (and_iff_right (hskip u _ ha).2).symm
  | right hb _ ih =>
    rw [Along, (hskip u _ hb).1, ih]
    exact and_iff_right (hskip u _ hb).2

end Matches

/-! ### Attributes and fields -/

/-- Attributes of a field that agree. -/
structure Attribute.AgreesOnField (a b : Attribute) : Prop where
  relation : b.declaredRelation? = a.declaredRelation?
  unique : (b.is "unique" = true → b.UniqueOnField) ↔ (a.is "unique" = true → a.UniqueOnField)
  suits : ∀ type sc, b.SuitsField type sc ↔ a.SuitsField type sc

/-- Attributes of a model that agree. -/
structure Attribute.AgreesOnModel (a b : Attribute) : Prop where
  keys : b.keyNames = a.keyNames
  unique : (b.is "unique" = true → b.UniqueOnModel) ↔ (a.is "unique" = true → a.UniqueOnModel)
  suits : ∀ keys, b.SuitsModel keys ↔ a.SuitsModel keys

/-- Of the type of a field only matters which block it names, and whether it takes literals. -/
theorem Attribute.suitsField_congr {type type' : FieldType}
    (h : type'.takesLiteral = type.takesLiteral) (sc : FieldScopes) (a : Attribute) :
    a.SuitsField type' sc ↔ a.SuitsField type sc := by
  have hitem : ∀ v : Value, v.SuitsItem type' sc.values ↔ v.SuitsItem type sc.values := by
    intro v
    cases v <;> simp [Value.SuitsItem, h]
  have hdefault : ∀ v : Value, v.SuitsDefault type' sc.values ↔ v.SuitsDefault type sc.values := by
    intro v
    cases v <;> simp [Value.SuitsDefault, hitem]
  simp only [SuitsField, SuitsDefault, hdefault]

/-- Fields that agree. -/
structure Field.Agrees (f g : Field) : Prop where
  name : g.name.name = f.name.name
  typeName : g.type.typeName? = f.type.typeName?
  literal : g.type.takesLiteral = f.type.takesLiteral
  attributes : List.Forall₂ Attribute.AgreesOnField f.attributes g.attributes

namespace Field.Agrees

variable {f g : Field}

theorem relationNames (h : f.Agrees g) : g.relationNames = f.relationNames :=
  filterMap_eq_of_forall₂ (h.attributes.imp fun _ _ hab => hab.relation)

theorem forall_attributes (h : f.Agrees g) {P Q : Attribute → Prop}
    (hPQ : ∀ a b, a.AgreesOnField b → (Q b ↔ P a)) :
    (∀ b ∈ g.attributes, Q b) ↔ ∀ a ∈ f.attributes, P a := by
  have hmatches : Matches Attribute.AgreesOnField (fun _ => False) f.attributes g.attributes :=
    Matches.of_forall₂ h.attributes fun _ _ hab => .inl hab
  exact hmatches.forall_iff hPQ (fun _ => False.elim) fun _ => False.elim

end Field.Agrees

/-! ### Models -/

namespace ModelMember

/-- Lines of a model that agree, comments apart. -/
inductive Agrees : ModelMember → ModelMember → Prop
  | field {f g : Field} (h : f.Agrees g) : Agrees (.field f) (.field g)
  | blockAttribute {a b : BlockAttribute} (h : a.attr.AgreesOnModel b.attr) :
    Agrees (.blockAttribute a) (.blockAttribute b)

/-- The line is a comment. -/
def IsComment (member : ModelMember) : Prop := ∃ c, member = .comment c

variable {a b : ModelMember}

theorem Agrees.keyNames (h : a.Agrees b) : b.keyNames = a.keyNames := by
  cases h with
  | field h => exact congrArg (fun x => [x]) h.name
  | blockAttribute h => exact h.keys

theorem Agrees.relationNames (h : a.Agrees b) : b.relationNames = a.relationNames := by
  cases h with
  | field h => exact h.relationNames
  | blockAttribute h => rfl

theorem Agrees.addMember (h : a.Agrees b) (m : ModelOutline) : m.addMember b = m.addMember a := by
  rw [ModelOutline.addMember, ModelOutline.addMember, h.keyNames, h.relationNames]

theorem Agrees.declarable (h : a.Agrees b) (m : ModelOutline) : b.Declarable m ↔ a.Declarable m := by
  unfold Declarable
  rw [h.relationNames]
  cases h with
  | field h =>
    have hfield : ∀ x : Field, (∀ f, ModelMember.field x = .field f → f.name.name ∉ m.keys) ↔
        x.name.name ∉ m.keys := by simp
    rw [hfield, hfield, h.name]
    refine and_congr_right fun _ => and_congr_right fun _ => ?_
    exact h.forall_attributes fun _ _ hab => hab.unique
  | blockAttribute h =>
    refine and_congr (by simp) (and_congr_right fun _ => h.unique)

theorem IsComment.addMember (h : a.IsComment) (m : ModelOutline) : m.addMember a = m := by
  obtain ⟨c, rfl⟩ := h
  exact ModelOutline.addRelations_nil _

theorem IsComment.declarable (h : a.IsComment) (m : ModelOutline) : a.Declarable m := by
  obtain ⟨c, rfl⟩ := h
  simp [Declarable, ModelMember.relationNames, Shaped, Fresh]

end ModelMember

/-- Models that agree. -/
structure Model.Agrees (m m' : Model) : Prop where
  name : m'.name.name = m.name.name
  members : Matches ModelMember.Agrees ModelMember.IsComment m.members m'.members

namespace Model.Agrees

variable {m m' : Model}

theorem outline (h : m.Agrees m') : m'.outline = m.outline := by
  rw [Model.outline, Model.outline, h.name]
  exact h.members.foldl_eq (fun u _ _ hab => hab.addMember u) (fun u _ ha => ha.addMember u) _

theorem declarable (h : m.Agrees m') : m'.Declarable ↔ m.Declarable := by
  rw [← m'.along_declarable, ← m.along_declarable, h.name]
  exact h.members.along_iff (fun u _ _ hab => hab.addMember u) (fun u _ _ hab => hab.declarable u)
    (fun u _ ha => ⟨ha.addMember u, ha.declarable u⟩) _

theorem relationNames (h : m.Agrees m') : m'.relationNames = m.relationNames :=
  h.members.flatMap_eq (fun _ _ hab => hab.relationNames) fun _ ha => by
    obtain ⟨c, rfl⟩ := ha
    rfl

theorem keyNames (h : m.Agrees m') : m'.keyNames = m.keyNames := by
  have hfields : List.Forall₂ Field.Agrees m.fields m'.fields :=
    h.members.forall₂_filterMap
      (fun a b hab => by
        cases hab with
        | field hf => exact .inr ⟨_, _, rfl, rfl, hf⟩
        | blockAttribute => exact .inl ⟨rfl, rfl⟩)
      fun a ha => by
        obtain ⟨c, rfl⟩ := ha
        rfl
  have hattributes : List.Forall₂ Attribute.AgreesOnModel m.attributes m'.attributes :=
    h.members.forall₂_filterMap
      (fun a b hab => by
        cases hab with
        | field => exact .inl ⟨rfl, rfl⟩
        | blockAttribute ha => exact .inr ⟨_, _, rfl, rfl, ha⟩)
      fun a ha => by
        obtain ⟨c, rfl⟩ := ha
        rfl
  rw [Model.keyNames, Model.keyNames, fieldNames, fieldNames,
    map_eq_of_forall₂ (hfields.imp fun _ _ hf => hf.name),
    flatMap_eq_of_forall₂ (hattributes.imp fun _ _ ha => ha.keys)]

end Model.Agrees

/-! ### Schemas -/

/-- Enums that agree. -/
structure Enum.Agrees (e e' : Enum) : Prop where
  name : e'.name.name = e.name.name
  values : e'.valueNames = e.valueNames

/-- Models or enums that agree. -/
inductive Declaration.Agrees : Declaration → Declaration → Prop
  | model {m m' : Model} (h : m.Agrees m') : Agrees (.model m) (.model m')
  | enum {e e' : Enum} (h : e.Agrees e') : Agrees (.enum e) (.enum e')

/-- Neither a model nor an enum. -/
def Declaration.IsOther (d : Declaration) : Prop := d.typeName? = none

theorem Declaration.IsOther.cases {d : Declaration} (h : d.IsOther) :
    (∃ b, d = .config b) ∨ ∃ b, d = .comments b := by
  cases d with
  | model m => cases h
  | enum e => cases h
  | config b => exact .inl ⟨b, rfl⟩
  | comments b => exact .inr ⟨b, rfl⟩

/-- Schemas that agree. -/
def Schema.Agrees (s t : Schema) : Prop :=
  Matches Declaration.Agrees Declaration.IsOther s.declarations t.declarations

namespace Schema.Agrees

variable {s t : Schema} {n : Numbering}

theorem outline (h : s.Agrees t) : t.outline n = s.outline n := by
  refine h.foldl_eq (fun u a b hab => ?_) (fun u a ha => ?_) _
  · cases hab with
    | model hm => simp only [Outline.addDeclaration, hm.outline]
    | enum he => simp only [Outline.addDeclaration, Enum.outline, he.name, he.values]
  · obtain ⟨b, rfl⟩ | ⟨b, rfl⟩ := ha.cases <;> rfl

theorem typeNames (h : s.Agrees t) : t.typeNames = s.typeNames := by
  have hnames : List.Forall₂ Eq s.typeNames t.typeNames :=
    h.forall₂_filterMap
      (fun a b hab => by
        cases hab with
        | model hm => exact .inr ⟨_, _, rfl, rfl, hm.name.symm⟩
        | enum he => exact .inr ⟨_, _, rfl, rfl, he.name.symm⟩)
      fun a ha => ha
  exact (List.forall₂_eq_eq_eq ▸ hnames : s.typeNames = t.typeNames).symm

theorem models (h : s.Agrees t) : List.Forall₂ Model.Agrees s.models t.models :=
  h.forall₂_filterMap
    (fun a b hab => by
      cases hab with
      | model hm => exact .inr ⟨_, _, rfl, rfl, hm⟩
      | enum => exact .inl ⟨rfl, rfl⟩)
    fun a ha => by obtain ⟨b, rfl⟩ | ⟨b, rfl⟩ := ha.cases <;> rfl

theorem enums (h : s.Agrees t) : List.Forall₂ Enum.Agrees s.enums t.enums :=
  h.forall₂_filterMap
    (fun a b hab => by
      cases hab with
      | model => exact .inl ⟨rfl, rfl⟩
      | enum he => exact .inr ⟨_, _, rfl, rfl, he⟩)
    fun a ha => by obtain ⟨b, rfl⟩ | ⟨b, rfl⟩ := ha.cases <;> rfl

theorem scopesAt (h : s.Agrees t) {m m' : Model} (hm : m.Agrees m') {type type' : FieldType}
    (htype : type'.typeName? = type.typeName?) : t.scopesAt m' type' = s.scopesAt m type := by
  have htarget : (t.modelOf type').map (fun u => (u.keyNames, u.relationNames)) =
      (s.modelOf type).map fun u => (u.keyNames, u.relationNames) := by
    rw [modelOf, modelOf, htype]
    cases type.typeName? with
    | none => rfl
    | some name =>
      rw [Option.bind_some, Option.bind_some, model?, model?]
      obtain ⟨h1, h2⟩ | ⟨u, u', h1, h2, hu⟩ := find?_of_forall₂ h.models
        (p := (·.name.name == name)) (q := (·.name.name == name)) fun _ _ hu => by rw [hu.name]
      · rw [h1, h2]
      · rw [h1, h2, Option.map_some, Option.map_some, hu.keyNames, hu.relationNames]
  have hvalues : (t.enumOf type').map (·.valueNames) = (s.enumOf type).map (·.valueNames) := by
    rw [enumOf, enumOf, htype]
    cases type.typeName? with
    | none => rfl
    | some name =>
      rw [Option.bind_some, Option.bind_some, enum?, enum?]
      obtain ⟨h1, h2⟩ | ⟨e, e', h1, h2, he⟩ := find?_of_forall₂ h.enums
        (p := (·.name.name == name)) (q := (·.name.name == name)) fun _ _ he => by rw [he.name]
      · rw [h1, h2]
      · rw [h1, h2, Option.map_some, Option.map_some, he.values]
  rw [Schema.scopesAt, Schema.scopesAt, htarget, hvalues, hm.keyNames]

theorem member_suits (h : s.Agrees t) {m m' : Model} (hm : m.Agrees m') {a b : ModelMember}
    (hab : a.Agrees b) : b.Suits t m' ↔ a.Suits s m := by
  cases hab with
  | field hf =>
    refine and_congr ?_ (hf.forall_attributes fun x y hxy => ?_)
    · rw [hf.typeName, h.typeNames]
    · rw [h.scopesAt hm hf.typeName, hxy.suits, Attribute.suitsField_congr hf.literal]
  | blockAttribute ha =>
    show Attribute.SuitsModel _ _ ↔ Attribute.SuitsModel _ _
    rw [ha.suits, hm.keyNames]

/-- Schemas that agree are both accepted, or neither is. -/
theorem accepted (h : s.Agrees t) : t.Accepted ↔ s.Accepted := by
  rw [← t.accepted_iff, ← s.accepted_iff, h.typeNames]
  refine and_congr (and_congr_right fun _ => ?_) ?_
  · refine h.forall_iff (fun a b hab => ?_) (fun a ha => ?_) fun a ha => ?_
    · cases hab with
      | model hm => exact hm.declarable
      | enum he => simp only [Declaration.Declarable, he.values]
    all_goals obtain ⟨b, rfl⟩ | ⟨b, rfl⟩ := ha.cases <;> trivial
  · refine h.forall_iff (fun a b hab => ?_) (fun a ha => ?_) fun a ha => ?_
    · cases hab with
      | model hm =>
        refine hm.members.forall_iff (fun x y hxy => h.member_suits hm hxy) ?_ ?_
        all_goals rintro _ ⟨c, rfl⟩; trivial
      | enum he => exact Iff.rfl
    all_goals obtain ⟨b, rfl⟩ | ⟨b, rfl⟩ := ha.cases <;> trivial

end Schema.Agrees

/-! ### Texts -/

section Texts

variable {w : FieldTexts} {T : Texts}

theorem Value.suitsItem_retextItem {type : FieldType} {values : Option (List String)} (v : Value) :
    (v.retextItem w).SuitsItem type values ↔ v.SuitsItem type values := by
  by_cases hv : v.isLiteral = true
  · have hliteral : ∀ u : Value, u.isLiteral = true →
        (u.SuitsItem type values ↔ type.takesLiteral = true) := by
      intro u hu
      cases u with
      | path segments => cases hu
      | call name args => cases hu
      | array items => cases hu
      | _ => exact Iff.rfl
    rw [hliteral v hv, hliteral _ ((isLiteral_retextItem w v).trans hv)]
  · cases v with
    | call name args =>
      rw [retextItem_call]
      split <;> exact Iff.rfl
    | array items => exact Iff.rfl
    | path segments => exact Iff.rfl
    | _ => exact absurd rfl hv

theorem Value.suitsDefault_retextDefault {type : FieldType} {values : Option (List String)}
    (v : Value) : (v.retextDefault w).SuitsDefault type values ↔ v.SuitsDefault type values := by
  have hitem : ∀ u : Value, u.array? = none →
      (u.SuitsDefault type values ↔ u.SuitsItem type values) := by
    intro u hu
    cases u with
    | array items => cases hu
    | _ => exact Iff.rfl
  cases hv : v.array? with
  | some items =>
    rw [eq_array_of_array? hv]
    simp only [retextDefault, SuitsDefault, List.forall_mem_map, suitsItem_retextItem]
  | none =>
    rw [retextDefault_of_array?_none hv, hitem _ (array?_retextItem hv), hitem v hv,
      suitsItem_retextItem]

namespace Attribute

theorem isSome_string?_mapString (f : String → String) (v : Value) :
    (v.mapString f).string?.isSome = v.string?.isSome := by
  rw [Value.string?_mapString, Option.isSome_map]

theorem relationName?_mapFirst_map (f : Value → Value) (a : Attribute) :
    (a.mapArgs (Argument.mapFirst (·.isNamed "map") f)).relationName? = a.relationName? := by
  rw [relationName?, mapArgs_args,
    Argument.find?_mapFirst_of_excludes (Argument.isNamed_excludes_namesRelation (by decide) _)]
  rfl

theorem suitsRelation_retext {text : String} {sc : FieldScopes} (a : Attribute) :
    (a.mapArgs (Argument.mapFirst (·.isNamed "map") (.mapString fun _ => text))).SuitsRelation sc ↔
      a.SuitsRelation sc := by
  have harg := fun (x : String) (hx : "map" ≠ x) =>
    arg?_mapArgs (Argument.find?_mapFirst_of_excludes
      (f := .mapString fun _ => text) (Argument.isNamed_excludes hx _)) a
  have hempty : Argument.mapFirst (·.isNamed "map") (.mapString fun _ => text) a.args = [] ↔
      a.args = [] := by
    rw [← List.isEmpty_iff, ← List.isEmpty_iff, Argument.isEmpty_mapFirst]
  have hlists : (a.mapArgs (Argument.mapFirst (·.isNamed "map")
      (.mapString fun _ => text))).SuitsLists sc ↔ a.SuitsLists sc := by
    simp only [SuitsLists, harg "references" (by decide), harg "fields" (by decide)]
  refine and_congr (not_congr hempty) (and_congr ?_ ?_)
  · rw [arg?_mapFirst]
    simp only [Option.map_eq_some_iff, forall_exists_index, and_imp, forall_apply_eq_imp_iff₂,
      isSome_string?_mapString]
  · simp only [SuitsTarget, bareRelation?, declaresRelation_mapFirst, relationName?_mapFirst_map,
      hlists]

theorem agrees_retextOnField (w : FieldTexts) (a : Attribute) :
    a.AgreesOnField (a.retextOnField w) := by
  by_cases hd : a.is "default" = true
  · have hr : a.is "relation" = false := is_of_ne hd (by decide)
    have hu : a.is "unique" = false := is_of_ne hd (by decide)
    refine ⟨by simp [declaredRelation?, hr], by simp [hu], fun type sc => ?_⟩
    simp only [SuitsField, retextOnField_is, hr, hd, Bool.false_eq_true, false_implies, and_true,
      forall_const]
    rw [retextOnField_of_default hd, SuitsDefault, SuitsDefault, mapArgs_args]
    cases a.args with
    | nil => simp [Argument.mapHead]
    | cons first rest => simp [Argument.mapHead, Value.suitsDefault_retextDefault]
  by_cases hr : a.is "relation" = true
  · have hu : a.is "unique" = false := is_of_ne hr (by decide)
    rw [retextOnField_of_relation hr]
    refine ⟨?_, by simp [hu], fun type sc => ?_⟩
    · simp only [declaredRelation?, mapArgs_is, declaresRelation_mapFirst, relationName?_mapFirst_map]
    · simp only [SuitsField, mapArgs_is, hd, hr, Bool.false_eq_true, false_implies, true_and,
        forall_const, suitsRelation_retext]
  have hsuits : ∀ type sc, (a.retextOnField w).SuitsField type sc ↔ a.SuitsField type sc := by
    intro type sc
    simp [SuitsField, hd, hr]
  have hrelation : (a.retextOnField w).declaredRelation? = a.declaredRelation? := by
    simp [declaredRelation?, hr]
  refine ⟨hrelation, ?_, hsuits⟩
  simp only [retextOnField_is]
  refine forall_congr' fun hu => ?_
  rw [retextOnField_of_unique hu, UniqueOnField, mapArgs_args, List.forall_mem_map]
  refine forall₂_congr fun arg _ => ?_
  split
  · simp only [Argument.mapValue_isPositional, Argument.mapValue_isNamed, Argument.mapValue_value,
      isSome_string?_mapString]
  · exact Iff.rfl

theorem agrees_retextIndex (text : String) (a : Attribute) :
    a.AgreesOnModel (a.retextIndex text) := by
  by_cases hi : a.is "index" = true
  · have hu : a.is "unique" = false := is_of_ne hi (by decide)
    have hid : a.is "id" = false := is_of_ne hi (by decide)
    refine ⟨by simp [keyNames, hu], by simp [hu], fun keys => ?_⟩
    simp only [SuitsModel, retextIndex_is, hu, hid, hi, Bool.false_eq_true, false_implies, and_true,
      forall_const]
    rw [retextIndex, if_pos hi, FirstLists, SecondNames, FirstLists, SecondNames, mapArgs_args]
    rcases a.args with _ | ⟨first, _ | ⟨second, rest⟩⟩
    · exact Iff.rfl
    · exact Iff.rfl
    · by_cases hm : second.isNamed "map" = true
      · simp [retextSecond, hm, isSome_string?_mapString]
      · simp [retextSecond, hm]
  · have hsame : a.retextIndex text = a := by rw [retextIndex, if_neg hi]
    rw [hsame]
    exact ⟨rfl, Iff.rfl, fun _ => Iff.rfl⟩

end Attribute

theorem ModelMember.agrees_retext (T : Texts) (model : String) (number : Nat) (member : ModelMember) :
    member.Agrees (member.retext T model number).1 ∨
      member.IsComment ∧ (member.retext T model number).1.IsComment := by
  cases member with
  | field f =>
    refine .inl (.field ⟨rfl, rfl, rfl, ?_⟩)
    rw [Field.retext, List.forall₂_map_right_iff, List.forall₂_same]
    exact fun a _ => a.agrees_retextOnField _
  | blockAttribute a => exact .inl (.blockAttribute (a.attr.agrees_retextIndex _))
  | comment c => exact .inr ⟨⟨c, rfl⟩, ⟨c.cleared, rfl⟩⟩

/-- Replacing texts changes no name, and nothing that a reference depends on. -/
theorem Schema.agrees_retext (T : Texts) (s : Schema) : s.Agrees (s.retext T) := by
  have hmap : List.Forall₂ (fun d d' => d' = d.retext T) s.declarations (s.retext T).declarations := by
    rw [retext, List.forall₂_map_right_iff, List.forall₂_same]
    exact fun _ _ => rfl
  refine Matches.of_forall₂ hmap ?_
  rintro d _ rfl
  cases d with
  | model m =>
    refine .inl (.model ⟨rfl, ?_⟩)
    refine Matches.of_forall₂ (forall₂_numberAlong 0 m.members) ?_
    rintro member _ ⟨number, rfl⟩
    exact member.agrees_retext T m.name.name number
  | enum e =>
    refine .inl (.enum ⟨rfl, ?_⟩)
    rw [Enum.valueNames_eq, Enum.valueNames_eq, List.filterMap_map]
    congr 1
    funext member
    cases member <;> rfl
  | config b => exact .inr ⟨rfl, rfl⟩
  | comments b => exact .inr ⟨rfl, rfl⟩

end Texts

end Pseudonym

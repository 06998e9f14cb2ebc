/-
# Declaring names

When the first step of an obfuscation succeeds, and what its result is like.
Walking through a schema, the registry always belongs to the outline of what
was declared so far. A line is declared exactly if its names are new there and
its attributes have a known shape; its new names are those of the finished
outline, and what it refers to is left as it was (`Field.Declared`).
-/
import Pseudonym.Proofs.Obfuscate.Face
import Pseudonym.Proofs.Schema.Outline

namespace Pseudonym

variable {n : Numbering} {ms : List ModelOutline} {es : List EnumOutline} {m full : ModelOutline}
  {field : String} {r : Registry}

/-- The registry belongs to an outline, whatever the number of environment variables. -/
def OfOutline (n : Numbering) (o : Outline) (r : Registry) : Prop :=
  ∃ env, r = Outline.registry n { o with envVars := env }

theorem OfOutline.numberEnv {o : Outline} (h : OfOutline n o r) (k : Nat) :
    OfOutline n o { r with envVars := k } := by
  obtain ⟨env, rfl⟩ := h
  exact ⟨k, rfl⟩

/-- The registry belongs to an outline whose last model is this one. -/
def OfModel (n : Numbering) (ms : List ModelOutline) (es : List EnumOutline) (m : ModelOutline) :
    Registry → Prop := OfOutline n ⟨ms ++ [m], es, 0⟩

/-! ### New names -/

/-- The names differ from one another and from those before them. -/
def Fresh (before names : List String) : Prop := names.Nodup ∧ ∀ x ∈ names, x ∉ before

theorem fresh_option {before : List String} {name : Option String} :
    Fresh before name.toList ↔ ∀ x, name = some x → x ∉ before := by
  cases name <;> simp [Fresh]

/-- The names along a list are new one after the other. -/
theorem along_fresh {σ α : Type} {next : σ → α → σ} {seen : σ → List String}
    {names : α → List String}
    (h : ∀ u a x, x ∈ seen (next u a) ↔ x ∈ seen u ∨ x ∈ names a) : ∀ {u : σ} {l : List α},
    Along next (fun u a => Fresh (seen u) (names a)) u l ↔ Fresh (seen u) (l.flatMap names)
  | _, [] => by simp [Along, Fresh]
  | u, a :: l => by
    rw [Along, along_fresh h]
    simp only [Fresh, List.flatMap_cons, List.nodup_append, List.mem_append, h]
    constructor
    · rintro ⟨⟨h1, h2⟩, h3, h4⟩
      refine ⟨⟨h1, h3, fun x hx y hy hxy => h4 y hy (.inr (hxy ▸ hx))⟩, ?_⟩
      rintro x (hx | hx)
      · exact h2 x hx
      · exact fun hs => h4 x hx (.inl hs)
    · rintro ⟨⟨h1, h2, h3⟩, h4⟩
      refine ⟨⟨h1, fun x hx => h4 x (.inl hx)⟩, h2, ?_⟩
      rintro x hx (hs | hs)
      · exact h4 x (.inr hx) hs
      · exact h3 x hs x hx rfl

/-! ### Numbered arguments -/

namespace Argument

theorem forall_numberEnvEach {P : Argument → Prop}
    (hP : ∀ n a, P (a.mapValue fun v => (v.numberEnv n).1) ↔ P a) :
    ∀ (n : Nat) (args : List Argument), (∀ a ∈ (numberEnvEach n args).1, P a) ↔ ∀ a ∈ args, P a
  | _, [] => by simp [numberEnvEach]
  | n, a :: rest => by
    rw [numberEnvEach_cons, List.forall_mem_cons, List.forall_mem_cons, hP,
      forall_numberEnvEach hP _ rest]

theorem filterMap_numberEnvEach {f : Argument → Option String}
    (hf : ∀ n a, f (a.mapValue fun v => (v.numberEnv n).1) = f a) :
    ∀ (n : Nat) (args : List Argument), (numberEnvEach n args).1.filterMap f = args.filterMap f
  | _, [] => rfl
  | n, a :: rest => by
    rw [numberEnvEach_cons, List.filterMap_cons, List.filterMap_cons, hf,
      filterMap_numberEnvEach hf _ rest]

theorem relation_numberEnvEach : ∀ (n : Nat) (args : List Argument),
    ((numberEnvEach n args).1.find? Attribute.namesRelation).bind (·.value.string?) =
      (args.find? Attribute.namesRelation).bind (·.value.string?)
  | _, [] => rfl
  | n, a :: rest => by
    rw [numberEnvEach_cons, List.find?_cons, List.find?_cons, unnumbered_namesRelation n a]
    cases Attribute.namesRelation a with
    | true => simp
    | false => exact relation_numberEnvEach _ rest

end Argument

namespace Attribute

theorem uniqueOnField_numberEnv (k : Nat) (a : Attribute) :
    (a.numberEnv k).1.UniqueOnField ↔ a.UniqueOnField :=
  Argument.forall_numberEnvEach (fun _ _ => by simp) k a.args

theorem uniqueOnModel_numberEnv (k : Nat) (a : Attribute) :
    (a.numberEnv k).1.UniqueOnModel ↔ a.UniqueOnModel :=
  Argument.forall_numberEnvEach (fun _ _ => by simp [Argument.namesKey]) k a.args

theorem declaredRelation?_numberEnv (k : Nat) (a : Attribute) :
    (a.numberEnv k).1.declaredRelation? = a.declaredRelation? := by
  have hname : (a.numberEnv k).1.relationName? = a.relationName? :=
    Argument.relation_numberEnvEach k a.args
  rw [declaredRelation?, declaredRelation?, numberEnv_is, numberEnv_declaresRelation, hname]

theorem keyNames_numberEnv (k : Nat) (a : Attribute) :
    (a.numberEnv k).1.keyNames = a.keyNames := by
  have hargs := Argument.filterMap_numberEnvEach (f := Argument.keyName?)
    (fun _ b => by simp [Argument.keyName?, Argument.namesKey]) k a.args
  rw [keyNames, keyNames, numberEnv_is]
  exact congrArg (fun names => if a.is "unique" = true then names else []) hargs

/-! ### Attributes of fields -/

/-- An attribute of a field of the `i`-th model after it is declared. -/
structure Declared (full : ModelOutline) (i : Nat) (a b : Attribute) : Prop where
  face : b.face = a.face
  relation : b.declaredRelation? = a.declaredRelation?.map (full.newRelation i)

theorem meets_renameKey (model field : String) (arg : Argument) :
    Meets (renameKey model field arg)
      (arg.isPositional = false ∧ (arg.isNamed "map" = true → arg.value.string?.isSome = true))
      fun _ => True := by
  unfold renameKey
  cases hn : arg.name with
  | none => exact Meets.error _ (by simp [Argument.isPositional, hn])
  | some name =>
    have hpos : arg.isPositional = false := by simp [Argument.isPositional, hn]
    have hmap : arg.isNamed "map" = (name.name == "map") := by simp [Argument.isNamed, hn]
    rw [hmap]
    dsimp only
    by_cases hm : (name.name == "map") = true
    · rw [if_pos hm]
      cases hv : arg.value.string? with
      | none => exact Meets.error _ (by simp [hm])
      | some old => exact Meets.ok ⟨hpos, fun _ => rfl⟩ trivial
    · rw [if_neg hm]
      exact Meets.ok ⟨hpos, fun h => absurd h hm⟩ trivial

theorem meets_declareUnique (model field : String) {a : Attribute} (hu : a.is "unique" = true) :
    Meets (a.declareUnique model field) a.UniqueOnField fun b => b.face = a.face := by
  have hargs := Meets.mapM fun arg (_ : arg ∈ a.args) => meets_renameKey model field arg
  unfold declareUnique
  by_cases h : a.UniqueOnField
  · obtain ⟨args, hok, -⟩ := hargs.1 h
    rw [hok]
    refine Meets.ok h ?_
    have hu' : ({ a with args } : Attribute).is "unique" = true := hu
    simp [face, hu, hu']
  · obtain ⟨e, he⟩ := hargs.2 h
    rw [he]
    exact Meets.error _ h

theorem meets_declareRelation {a : Attribute} (hr : a.is "relation" = true)
    (hm : OfModel n ms es m r) (hfull : (m.addRelations a.declaredRelation?.toList).Within full) :
    Meets (a.declareRelation (modelName ms.length) r)
      (∀ x, a.declaredRelation? = some x → x ∉ m.relations)
      fun p => Declared full ms.length a p.1 ∧
        OfModel n ms es (m.addRelations a.declaredRelation?.toList) p.2 := by
  have hsame : a.declaredRelation? = none → Meets (.ok (a, r) : Except Fault (Attribute × Registry))
      (∀ x, a.declaredRelation? = some x → x ∉ m.relations)
      fun p => Declared full ms.length a p.1 ∧
        OfModel n ms es (m.addRelations a.declaredRelation?.toList) p.2 := by
    intro hnone
    refine Meets.ok (by simp [hnone]) ⟨⟨rfl, by simp [hnone]⟩, ?_⟩
    simpa [hnone, ModelOutline.addRelations_nil] using hm
  unfold declareRelation
  by_cases hd : a.declaresRelation = true
  · rw [if_pos hd]
    cases hname : a.relationName? with
    | none => exact hsame (by simp [declaredRelation?, hr, hd, hname])
    | some name =>
      have hdecl : a.declaredRelation? = some name := by simp [declaredRelation?, hr, hd, hname]
      rw [hdecl] at hfull ⊢
      obtain ⟨env, rfl⟩ := hm
      dsimp only
      rw [Naming.bind_apply, Naming.register]
      rw [Outline.registerRelation_last]
      by_cases hx : name ∈ m.relations
      · rw [if_pos hx]
        exact Meets.error _ fun h => h name rfl hx
      · rw [if_neg hx]
        refine Meets.ok (by simpa using hx) ⟨⟨face_renameRelation hr hd _, ?_⟩, env, rfl⟩
        have hi : (a.renameRelation (relationName (modelName ms.length)
            m.relations.length)).is "relation" = true := hr
        have hlast := idxOf_added hfull.relations hx
        rw [hdecl, Option.map_some, ModelOutline.newRelation, hlast, declaredRelation?, hi,
          declaresRelation_renameRelation, hd, relationName?_renameRelation hname]
        rfl
  · rw [if_neg hd]
    exact hsame (by simp [declaredRelation?, hd])

/-- The declarations of an attribute whose environment variables have their names. -/
theorem meets_declareNumbered (a : Attribute) (hm : OfModel n ms es m r)
    (hfull : (m.addRelations a.declaredRelation?.toList).Within full) :
    Meets ((if a.is "relation" then a.declareRelation (modelName ms.length)
        else if a.is "unique" then .ofExcept (a.declareUnique (modelName ms.length) field)
        else pure a : Naming Attribute) r)
      ((∀ x, a.declaredRelation? = some x → x ∉ m.relations) ∧
        (a.is "unique" = true → a.UniqueOnField))
      fun p => Declared full ms.length a p.1 ∧
        OfModel n ms es (m.addRelations a.declaredRelation?.toList) p.2 := by
  by_cases hr : a.is "relation" = true
  · have hu : a.is "unique" = false := is_of_ne hr (by decide)
    rw [if_pos hr]
    exact (meets_declareRelation hr hm hfull).congr (by simp [hu]) fun _ _ => id
  have hnone : a.declaredRelation? = none := by simp [declaredRelation?, hr]
  have hsame : OfModel n ms es (m.addRelations a.declaredRelation?.toList) r := by
    simpa [hnone, ModelOutline.addRelations_nil] using hm
  rw [if_neg hr]
  by_cases hu : a.is "unique" = true
  · rw [if_pos hu, Naming.ofExcept_apply]
    refine ((meets_declareUnique _ _ hu).map fun _ b hb => ?_).congr (by simp [hnone, hu])
      fun _ _ => id
    have hb' : b.declaredRelation? = none := by
      have hbu : b.is "unique" = true := by rw [← face_is, hb, face_is, hu]
      simp [declaredRelation?, is_of_ne hbu (show "unique" ≠ "relation" by decide)]
    exact ⟨⟨hb, by rw [hb', hnone]; rfl⟩, hsame⟩
  · rw [if_neg hu, Naming.pure_apply]
    exact Meets.ok (by simp [hnone, hu]) ⟨⟨rfl, by rw [hnone]; rfl⟩, hsame⟩

theorem meets_declareOnField (a : Attribute) (hm : OfModel n ms es m r)
    (hfull : (m.addRelations a.declaredRelation?.toList).Within full) :
    Meets (a.declareOnField (modelName ms.length) field r)
      (Fresh m.relations a.declaredRelation?.toList ∧ (a.is "unique" = true → a.UniqueOnField))
      fun p => Declared full ms.length a p.1 ∧
        OfModel n ms es (m.addRelations a.declaredRelation?.toList) p.2 := by
  have hrel := declaredRelation?_numberEnv r.envVars a
  have hm' := hm.numberEnv (a.numberEnv r.envVars).2
  rw [declareOnField, Naming.numberEnv_bind]
  refine (meets_declareNumbered _ hm' (hrel ▸ hfull)).congr ?_ fun _ p hp => ?_
  · rw [hrel, numberEnv_is, uniqueOnField_numberEnv, fresh_option]
  · rw [hrel] at hp
    exact ⟨⟨hp.1.face.trans (face_numberEnv _ a), hp.1.relation.trans (by rw [hrel])⟩, hp.2⟩

end Attribute

/-! ### Fields -/

namespace Field

/-- A field of the `i`-th model after it is declared: it has its new name, and its references are
as they were. -/
structure Declared (full : ModelOutline) (i : Nat) (f g : Field) : Prop where
  name : g.name.name = full.newKey f.name.name
  type : g.type = f.type
  attributes : List.Forall₂ (Attribute.Declared full i) f.attributes g.attributes

/-- What the attributes of a field have to be like to be declared. -/
def Shaped (f : Field) : Prop := ∀ a ∈ f.attributes, a.is "unique" = true → a.UniqueOnField

theorem meets_attributes (f : Field) (hm : OfModel n ms es m r)
    (hfull : (m.addRelations f.relationNames).Within full) :
    Meets (f.attributes.mapM (·.declareOnField (modelName ms.length) field) r)
      (Fresh m.relations f.relationNames ∧ f.Shaped)
      fun p => List.Forall₂ (Attribute.Declared full ms.length) f.attributes p.1 ∧
        OfModel n ms es (m.addRelations f.relationNames) p.2 := by
  rw [relationNames, ← ModelOutline.addRelations_foldl] at hfull ⊢
  refine (Meets.mapM_naming (R := OfModel n ms es)
    (P := fun m a => Fresh m.relations a.declaredRelation?.toList ∧
      (a.is "unique" = true → a.UniqueOnField)) (fun before a after r hl hr => ?_) r hm).congr
    ?_ fun _ _ => id
  · exact Attribute.meets_declareOnField a hr
      (grows_of_foldl .refl .trans (fun m _ => m.within_addRelations _) hl hfull)
  · rw [along_and, along_forall, along_fresh (fun _ _ _ => List.mem_append),
      List.filterMap_eq_flatMap_toList]
    rfl

/-- The name is new among the keys, the relations are new, and the attributes have their shape. -/
theorem meets_declare (f : Field) (hm : OfModel n ms es m r)
    (hfull : (m.addMember (.field f)).Within full) :
    Meets (f.declare (modelName ms.length) r)
      (f.name.name ∉ m.keys ∧ Fresh m.relations f.relationNames ∧ f.Shaped)
      fun p => Declared full ms.length f p.1 ∧ OfModel n ms es (m.addMember (.field f)) p.2 := by
  obtain ⟨env, rfl⟩ := hm
  rw [declare, Naming.bind_apply, Naming.register, Outline.registerField_last]
  by_cases hname : f.name.name ∈ m.keys
  · rw [if_pos hname]
    exact Meets.error _ fun h => h.1 hname
  rw [if_neg hname]
  have hkeys : (m.addKey f.name.name).keys = m.keys ++ [f.name.name] := by
    rw [ModelOutline.addKey, if_neg hname]
  have hwithin : (m.addKey f.name.name).Within full :=
    (ModelOutline.within_addRelations _ _).trans hfull
  have hnew : fieldName m.keys.length = full.newKey f.name.name := by
    rw [ModelOutline.newKey, idxOf_added (hkeys ▸ hwithin.keys) hname]
  refine ((meets_attributes f ⟨env, rfl⟩ hfull).map fun _ p hp => ?_).congr ?_ fun _ _ => id
  · exact ⟨⟨hnew, rfl, hp.1⟩, hp.2⟩
  · simp [hname]

end Field

/-! ### Attributes of models -/

namespace Attribute

/-- An attribute of a model after it is declared. -/
structure KeysDeclared (full : ModelOutline) (a b : Attribute) : Prop where
  face : b.keyFace = a.keyFace
  names : b.keyNames = a.keyNames.map full.newKey

/-- The shape of one argument of `@@unique`. -/
theorem meets_declareShorthand (a : Attribute) (arg : Argument) (hm : OfModel n ms es m r)
    (hfull : (m.addKeys arg.keyName?.toList).Within full) :
    Meets (a.declareShorthand (modelName ms.length) arg r)
      (arg.isPositional = true ∨ (arg.namesKey = true ∧ arg.value.string?.isSome = true))
      fun p => (p.1.keyFace = arg.keyFace ∧ p.1.keyName? = arg.keyName?.map full.newKey) ∧
        OfModel n ms es (m.addKeys arg.keyName?.toList) p.2 := by
  unfold declareShorthand
  cases hn : arg.name with
  | none =>
    have hkey : arg.keyName? = none := by
      simp [Argument.keyName?, Argument.namesKey, Argument.isNamed, hn]
    rw [hkey]
    exact Meets.ok (.inl (by simp [Argument.isPositional, hn])) ⟨⟨rfl, hkey⟩, hm⟩
  | some name =>
    have hpos : arg.isPositional = false := by simp [Argument.isPositional, hn]
    have hkey : arg.namesKey = (name.name == "name" || name.name == "map") := by
      simp [Argument.namesKey, Argument.isNamed, hn]
    rw [hpos, hkey]
    dsimp only
    by_cases hk : (name.name == "name" || name.name == "map") = true
    · rw [if_pos hk]
      cases hv : arg.value.string? with
      | none => exact Meets.error _ (by simp)
      | some old =>
        have hname : arg.keyName? = some old := by rw [Argument.keyName?, hkey, if_pos hk, hv]
        rw [hname] at hfull ⊢
        obtain ⟨env, rfl⟩ := hm
        dsimp only
        rw [Naming.bind_apply, Naming.register, Outline.ensureField_last]
        have hnew : fieldName ((m.addKey old).keys.idxOf old) = full.newKey old := by
          rw [ModelOutline.newKey, ← hfull.keys.idxOf_eq_of_mem (by simp [ModelOutline.addKeys])]
          rfl
        have harg : (⟨some name, .string (full.newKey old), arg.span⟩ : Argument) =
            arg.mapValue fun _ => .string (full.newKey old) := by
          rw [← hn]
          rfl
        rw [hnew]
        show Meets (.ok ((⟨some name, .string (full.newKey old), arg.span⟩ : Argument), _)) _ _
        rw [harg]
        refine Meets.ok (.inr ⟨hk, rfl⟩) ⟨⟨Argument.keyFace_rename (hkey.trans hk) hv _, ?_⟩, env, rfl⟩
        have hkey' : (arg.mapValue fun _ => .string (full.newKey old)).namesKey = true :=
          hkey.trans hk
        rw [Argument.keyName?, if_pos hkey']
        rfl
    · rw [if_neg hk, Naming.throw_apply]
      exact Meets.error _ (by simp [hk])

theorem meets_declareOnModel (a : Attribute) (hm : OfModel n ms es m r)
    (hfull : (m.addKeys a.keyNames).Within full) :
    Meets (a.declareOnModel (modelName ms.length) r) (a.is "unique" = true → a.UniqueOnModel)
      fun p => KeysDeclared full a p.1 ∧ OfModel n ms es (m.addKeys a.keyNames) p.2 := by
  have hm' := hm.numberEnv (a.numberEnv r.envVars).2
  have hface := keyFace_numberEnv r.envVars a
  have hkeys := keyNames_numberEnv r.envVars a
  have huniq := uniqueOnModel_numberEnv r.envVars a
  have hi := numberEnv_is r.envVars a "unique"
  rw [declareOnModel, Naming.numberEnv_bind, ← hi, ← huniq]
  rw [← hkeys] at hfull ⊢
  generalize (a.numberEnv r.envVars).1 = b at hi hface hkeys huniq hfull ⊢
  by_cases hu : b.is "unique" = true
  · have hnames : b.keyNames = b.args.filterMap (·.keyName?) := by rw [keyNames, if_pos hu]
    rw [if_pos hu]
    rw [hnames, ← ModelOutline.addKeys_foldl] at hfull ⊢
    rw [Naming.bind_apply]
    refine ((Meets.mapM_naming (R := OfModel n ms es)
      (P := fun _ arg => arg.isPositional = true ∨
        (arg.namesKey = true ∧ arg.value.string?.isSome = true))
      (Q := fun arg arg' => arg'.keyFace = arg.keyFace ∧
        arg'.keyName? = arg.keyName?.map full.newKey)
      (fun before arg after r hl hr => meets_declareShorthand b arg hr
        (grows_of_foldl .refl .trans (fun m _ => m.within_addKeys _) hl hfull)) _ hm').map
      fun _ p hp => ?_).congr ?_ fun _ _ => id
    · have hfaces := map_eq_of_forall₂ (hp.1.imp fun _ _ h => h.1)
      have hargs := filterMap_eq_of_forall₂ (hp.1.imp fun _ _ h => h.2)
      have hu' : ({ b with args := p.1 } : Attribute).is "unique" = true := hu
      refine ⟨⟨?_, ?_⟩, hp.2⟩
      · rw [← hface]
        simp only [keyFace, mapArgs, hfaces]
      · rw [← hkeys, hnames, keyNames, if_pos hu', List.map_filterMap]
        exact hargs
    · rw [along_forall]
      simp [UniqueOnModel, hu]
  · have hnames : b.keyNames = [] := by rw [keyNames, if_neg hu]
    rw [if_neg hu, Naming.pure_apply, hnames]
    exact Meets.ok (fun h => absurd h hu) ⟨⟨hface, by rw [← hkeys, hnames]; rfl⟩, hm'⟩

end Attribute

/-! ### Models -/

namespace ModelMember

/-- A line of the `i`-th model after it is declared. -/
inductive Declared (full : ModelOutline) (i : Nat) : ModelMember → ModelMember → Prop
  | field {f g : Field} (h : Field.Declared full i f g) : Declared full i (.field f) (.field g)
  | blockAttribute {a b : BlockAttribute} (h : Attribute.KeysDeclared full a.attr b.attr) :
    Declared full i (.blockAttribute a) (.blockAttribute b)
  | comment (c d : Comment) : Declared full i (.comment c) (.comment d)

/-- What the attributes on a line have to be like to be declared. -/
def Shaped : ModelMember → Prop
  | .field f => f.Shaped
  | .blockAttribute a => a.attr.is "unique" = true → a.attr.UniqueOnModel
  | .comment _ => True

/-- When a line can be declared in a model that has these names. -/
def Declarable (m : ModelOutline) (member : ModelMember) : Prop :=
  (∀ f, member = .field f → f.name.name ∉ m.keys) ∧ Fresh m.relations member.relationNames ∧
    member.Shaped

theorem meets_declare (member : ModelMember) (hm : OfModel n ms es m r)
    (hfull : (m.addMember member).Within full) :
    Meets (member.declare (modelName ms.length) r) (member.Declarable m)
      fun p => Declared full ms.length member p.1 ∧ OfModel n ms es (m.addMember member) p.2 := by
  cases member with
  | field f =>
    rw [declare, Naming.map_apply]
    refine ((f.meets_declare hm hfull).map fun _ p hp => ?_).congr ?_ fun _ _ => id
    · exact ⟨.field hp.1, hp.2⟩
    · simp [Declarable, relationNames, Shaped]
  | blockAttribute a =>
    have hadd : m.addMember (.blockAttribute a) = m.addKeys a.attr.keyNames :=
      ModelOutline.addRelations_nil _
    rw [hadd] at hfull ⊢
    rw [declare, Naming.bind_apply]
    refine ((Attribute.meets_declareOnModel a.attr hm hfull).map fun _ p hp => ?_).congr ?_
      fun _ _ => id
    · exact ⟨.blockAttribute hp.1, hp.2⟩
    · simp [Declarable, relationNames, Shaped, Fresh]
  | comment c =>
    have hadd : m.addMember (.comment c) = m := ModelOutline.addRelations_nil _
    rw [hadd]
    exact Meets.ok (by simp [Declarable, relationNames, Shaped, Fresh]) ⟨.comment _ _, hm⟩

end ModelMember

/-- The name of a model or an enum is registered if no type has it. -/
theorem Outline.meets_new_type {α : Type} (o : Outline) (name : String) {e : Fault} {a : α}
    {Q : α → Prop} (ha : Q a) :
    Meets (if name ∈ o.modelNames ∨ name ∈ o.enumNames then .error e else .ok a)
      (Fresh o.typeNames [name]) Q := by
  have hfresh : Fresh o.typeNames [name] ↔ ¬(name ∈ o.modelNames ∨ name ∈ o.enumNames) := by
    simp [Fresh, typeNames]
  rw [hfresh]
  by_cases hname : name ∈ o.modelNames ∨ name ∈ o.enumNames
  · exact if_pos hname ▸ Meets.error _ (not_not_intro hname)
  · exact if_neg hname ▸ Meets.ok hname ha

namespace Model

/-- When the lines of a model can be declared. -/
structure Declarable (m : Model) : Prop where
  fields : m.FieldsFresh
  relations : m.relationNames.Nodup
  shaped : ∀ member ∈ m.members, member.Shaped

theorem along_declarable (m : Model) :
    Along ModelOutline.addMember (fun o member => member.Declarable o) ⟨m.name.name, [], []⟩
      m.members ↔ m.Declarable := by
  have hfields : Along ModelOutline.addMember
      (fun o member => ∀ f, member = .field f → f.name.name ∉ o.keys) ⟨m.name.name, [], []⟩
      m.members ↔ m.FieldsFresh := by
    rw [along_iff]
    constructor
    · intro h before f after hl
      have hf := h before _ after hl f rfl
      simpa [mem_keys_foldl] using hf
    · rintro h before _ after hl f rfl
      have hf := h before f after hl
      simpa [mem_keys_foldl] using hf
  have hrelations : Along ModelOutline.addMember
      (fun o member => Fresh o.relations member.relationNames) ⟨m.name.name, [], []⟩ m.members ↔
      m.relationNames.Nodup := by
    rw [along_fresh fun o member x => by simp [ModelOutline.addMember, ModelOutline.addRelations]]
    simp [Fresh, relationNames]
  simp only [ModelMember.Declarable]
  rw [along_and, along_and, along_forall, hfields, hrelations]
  exact ⟨fun h => ⟨h.1, h.2.1, h.2.2⟩, fun h => ⟨h.fields, h.relations, h.shaped⟩⟩

/-- A model after it is declared, in the outline of the whole schema. -/
structure Declared (full : Outline) (m m' : Model) : Prop where
  outline : full.models[full.modelNames.idxOf m.name.name]? = some m.outline
  name : m'.name.name = modelName (full.modelNames.idxOf m.name.name)
  members : List.Forall₂ (ModelMember.Declared m.outline (full.modelNames.idxOf m.name.name))
    m.members m'.members

theorem meets_register {o : Outline} (hr : OfOutline n o r) (name : String) :
    Meets (r.attempt (Registry.registerModel name)) (Fresh o.typeNames [name]) fun p =>
      p.1 = modelName o.models.length ∧ OfModel n o.models o.enums ⟨name, [], []⟩ p.2 := by
  obtain ⟨env, rfl⟩ := hr
  rw [Outline.registerModel_registry]
  exact o.meets_new_type name ⟨rfl, env, rfl⟩

theorem meets_declare (m : Model) {o full : Outline} (hr : OfOutline n o r)
    (hfull : (o.addDeclaration n (.model m)).Within full) :
    Meets (m.declare r) (Fresh o.typeNames [m.name.name] ∧ m.Declarable)
      fun p => Declared full m p.1 ∧ OfOutline n (o.addDeclaration n (.model m)) p.2 := by
  rw [declare, Naming.bind_apply]
  refine ((meets_register hr m.name.name).locate _).bind fun hfresh p hp => ?_
  obtain ⟨new, r'⟩ := p
  obtain ⟨rfl, hr'⟩ := hp
  have hwalk := Meets.mapM_naming (l := m.members) (R := OfModel n o.models o.enums)
    (P := fun u member => member.Declarable u)
    (fun before member after r hl hr => ModelMember.meets_declare member hr
      (grows_of_foldl .refl .trans ModelOutline.within_addMember hl (.refl m.outline))) r' hr'
  refine (hwalk.map fun _ p hp => ?_).congr m.along_declarable fun _ _ => id
  have hnew : m.outline.name ∉ o.models.map (·.name) := by
    rw [name_outline]
    exact fun h => hfresh.2 m.name.name (by simp) (List.mem_append_left _ h)
  obtain ⟨hidx, hget⟩ := idxOf_map_added hfull.models hnew
  rw [name_outline] at hidx
  exact ⟨⟨by rw [← hget, ← hidx]; rfl, congrArg modelName hidx.symm, hidx ▸ hp.1⟩, hp.2⟩

end Model

/-! ### Enums -/

/-- The value that a line of an enum declares. -/
def EnumMember.valueName? (member : EnumMember) : Option String := member.value?.map (·.name.name)

theorem Enum.valueNames_eq (e : Enum) : e.valueNames = e.members.filterMap (·.valueName?) := by
  rw [valueNames, values, List.map_filterMap]
  rfl

/-- The registry belongs to an outline whose last enum is this one, numbered behind the others. -/
def OfEnum (n : Numbering) (ms : List ModelOutline) (es : List EnumOutline) (e : EnumOutline)
    (r : Registry) : Prop :=
  OfOutline n ⟨ms, es ++ [e], 0⟩ r ∧ e.base = EnumOutline.used n es

theorem OfEnum.numberEnv {e : EnumOutline} (h : OfEnum n ms es e r) (k : Nat) :
    OfEnum n ms es e { r with envVars := k } := ⟨h.1.numberEnv k, h.2⟩

theorem EnumValue.meets_declare (v : EnumValue) {e full : EnumOutline} (hr : OfEnum n ms es e r)
    (hfull : (e.addValues [v.name.name]).Within full) :
    Meets (v.declare (enumName es.length) r) (Fresh e.values [v.name.name])
      fun p => p.1.name.name = full.newValue v.name.name ∧
        OfEnum n ms es (e.addValues [v.name.name]) p.2 := by
  obtain ⟨⟨env, rfl⟩, hbase⟩ := hr
  rw [declare, Naming.bind_apply, Naming.register]
  rw [Outline.registerValue_last hbase]
  by_cases hname : v.name.name ∈ e.values
  · rw [if_pos hname]
    exact Meets.error _ fun h => h.2 _ (by simp) hname
  rw [if_neg hname]
  have hnew : valueName (e.base + e.values.length) = full.newValue v.name.name := by
    rw [EnumOutline.newValue, idxOf_added hfull.values hname, ← hfull.base]
    rfl
  have hwalk := Meets.mapM_keeping
    (f := fun a : Attribute => Naming.numberEnv (a.numberEnv ·))
    (R := OfEnum n ms es (e.addValues [v.name.name]))
    (fun a r hr => Meets.ok trivial (hr.numberEnv _)) v.attributes ⟨⟨env, rfl⟩, hbase⟩
  refine (hwalk.map fun _ p hp => ?_).congr ?_ fun _ _ => id
  · exact ⟨hnew, hp⟩
  · simp [Fresh, hname]

theorem EnumMember.meets_declare (member : EnumMember) {e full : EnumOutline}
    (hr : OfEnum n ms es e r) (hfull : (e.addValues member.valueName?.toList).Within full) :
    Meets (member.declare (enumName es.length) r) (Fresh e.values member.valueName?.toList)
      fun p => p.1.valueName? = member.valueName?.map full.newValue ∧
        OfEnum n ms es (e.addValues member.valueName?.toList) p.2 := by
  cases member with
  | value v =>
    rw [declare, Naming.map_apply]
    exact (v.meets_declare hr hfull).map fun _ p hp => ⟨congrArg some hp.1, hp.2⟩
  | blockAttribute a =>
    rw [declare, Naming.numberEnv_bind]
    refine Meets.ok (by simp [Fresh, valueName?, value?]) ⟨rfl, ?_⟩
    exact (EnumOutline.addValues_nil e).symm ▸ hr.numberEnv _
  | comment c =>
    refine Meets.ok (by simp [Fresh, valueName?, value?]) ⟨rfl, ?_⟩
    exact (EnumOutline.addValues_nil e).symm ▸ hr

namespace Enum

/-- An enum after it is declared, in the outline of the whole schema. -/
structure Declared (full : Outline) (e e' : Enum) : Prop where
  name : e'.name.name = enumName (full.enumNames.idxOf e.name.name)
  values : ∃ base, full.enums[full.enumNames.idxOf e.name.name]? = some (e.outline base) ∧
    e'.valueNames = e.valueNames.map (e.outline base).newValue

theorem meets_register {o : Outline} (hr : OfOutline n o r) (name : String) :
    Meets (r.attempt (Registry.registerEnum name)) (Fresh o.typeNames [name]) fun p =>
      p.1 = enumName o.enums.length ∧
        OfEnum n o.models o.enums ⟨name, EnumOutline.used n o.enums, []⟩ p.2 := by
  obtain ⟨env, rfl⟩ := hr
  rw [Outline.registerEnum_registry]
  exact o.meets_new_type name ⟨rfl, ⟨env, rfl⟩, rfl⟩

/-- Going through the members of an enum gives its outline. -/
theorem foldl_members (e : Enum) (base : Nat) :
    e.members.foldl (fun u member => u.addValues member.valueName?.toList) ⟨e.name.name, base, []⟩ =
      e.outline base := by
  rw [EnumOutline.addValues_foldl, outline, valueNames_eq]
  rfl

theorem within_outline {e : Enum} {base : Nat} {before after : List EnumMember} {member : EnumMember}
    (hl : e.members = before ++ member :: after) :
    ((before.foldl (fun (u : EnumOutline) member => u.addValues member.valueName?.toList)
      ⟨e.name.name, base, []⟩).addValues member.valueName?.toList).Within (e.outline base) := by
  have hfull := EnumOutline.Within.refl (e.outline base)
  nth_rewrite 1 [← foldl_members] at hfull
  exact grows_of_foldl .refl .trans (fun u _ => u.within_addValues _) hl hfull

theorem meets_declare (e : Enum) {o full : Outline} (hr : OfOutline n o r)
    (hfull : (o.addDeclaration n (.enum e)).Within full) :
    Meets (e.declare r) (Fresh o.typeNames [e.name.name] ∧ e.valueNames.Nodup)
      fun p => Declared full e p.1 ∧ OfOutline n (o.addDeclaration n (.enum e)) p.2 := by
  rw [declare, Naming.bind_apply]
  refine ((meets_register hr e.name.name).locate _).bind fun hfresh p hp => ?_
  obtain ⟨new, r'⟩ := p
  obtain ⟨rfl, hr'⟩ := hp
  have hwalk := Meets.mapM_naming (l := e.members) (R := OfEnum n o.models o.enums)
    (P := fun u member => Fresh u.values member.valueName?.toList)
    (Q := fun (member member' : EnumMember) => member'.valueName? =
      member.valueName?.map (e.outline (EnumOutline.used n o.enums)).newValue)
    (fun before member after r hl hr => member.meets_declare hr (within_outline hl)) r' hr'
  refine (hwalk.map fun _ p hp => ?_).congr ?_ fun _ _ => id
  · have hnew : (e.outline (EnumOutline.used n o.enums)).name ∉ o.enums.map (·.name) :=
      fun h => hfresh.2 e.name.name (by simp) (List.mem_append_right _ h)
    obtain ⟨hidx, hget⟩ := idxOf_map_added hfull.enums hnew
    rw [foldl_members] at hp
    refine ⟨⟨congrArg enumName hidx.symm, EnumOutline.used n o.enums, ?_, ?_⟩, hp.2.1⟩
    · rw [← hget, ← hidx]
      rfl
    · rw [valueNames_eq, valueNames_eq, List.map_filterMap]
      exact filterMap_eq_of_forall₂ hp.1
  · rw [along_fresh (fun _ _ _ => List.mem_append), ← List.filterMap_eq_flatMap_toList,
      ← valueNames_eq]
    simp [Fresh]

end Enum

/-! ### Schemas -/

theorem ConfigBlock.meets_declare (b : ConfigBlock) {o : Outline} (hr : OfOutline n o r) :
    Meets (b.declare r) True fun p => OfOutline n o p.2 := by
  have hwalk := Meets.mapM_keeping (f := ConfigMember.declare) (R := OfOutline n o)
    (fun member r hr => by
      cases member with
      | property p => exact Meets.ok trivial (hr.numberEnv _)
      | comment c => exact Meets.ok trivial hr) b.members hr
  exact hwalk.map fun _ p hp => hp

namespace Declaration

/-- A declaration after it is declared, in the outline of the whole schema. -/
inductive Declared (full : Outline) : Declaration → Declaration → Prop
  | model {m m' : Model} (h : Model.Declared full m m') : Declared full (.model m) (.model m')
  | enum {e e' : Enum} (h : Enum.Declared full e e') : Declared full (.enum e) (.enum e')
  | config (b b' : ConfigBlock) : Declared full (.config b) (.config b')
  | comments (b b' : CommentBlock) : Declared full (.comments b) (.comments b')

/-- When the lines of a declaration can be declared. -/
def Declarable : Declaration → Prop
  | .model m => m.Declarable
  | .enum e => e.valueNames.Nodup
  | .config _ => True
  | .comments _ => True

theorem meets_declare (d : Declaration) {o full : Outline} (hr : OfOutline n o r)
    (hfull : (o.addDeclaration n d).Within full) :
    Meets (d.declare r) (Fresh o.typeNames d.typeName?.toList ∧ d.Declarable)
      fun p => Declared full d p.1 ∧ OfOutline n (o.addDeclaration n d) p.2 := by
  cases d with
  | model m =>
    rw [declare, Naming.map_apply]
    exact (m.meets_declare hr hfull).map fun _ p hp => ⟨.model hp.1, hp.2⟩
  | enum e =>
    rw [declare, Naming.map_apply]
    exact (e.meets_declare hr hfull).map fun _ p hp => ⟨.enum hp.1, hp.2⟩
  | config b =>
    rw [declare, Naming.map_apply]
    refine ((b.meets_declare hr).map fun _ p hp => ?_).congr ?_ fun _ _ => id
    · exact ⟨.config b p.1, hp⟩
    · simp [Fresh, typeName?, Declarable]
  | comments b =>
    exact Meets.ok (by simp [Fresh, typeName?, Declarable]) ⟨.comments _ _, hr⟩

end Declaration

/-- **Declaring a schema.** It succeeds exactly if names are new in their scopes and attributes
have their shape, and the registry is then that of the schema's outline. -/
theorem Schema.meets_declare (n : Numbering) (s : Schema) :
    Meets (s.declare (.new n)) (s.typeNames.Nodup ∧ ∀ d ∈ s.declarations, d.Declarable)
      fun p => List.Forall₂ (Declaration.Declared (s.outline n)) s.declarations p.1.declarations ∧
        OfOutline n (s.outline n) p.2 := by
  have hwalk := Meets.mapM_naming (l := s.declarations) (R := OfOutline n)
    (P := fun o d => Fresh o.typeNames d.typeName?.toList ∧ d.Declarable)
    (fun before d after r hl hr => d.meets_declare hr
      (grows_of_foldl .refl .trans (Outline.within_addDeclaration n) hl (.refl (s.outline n))))
    (.new n) ⟨0, (Outline.registry_empty n).symm⟩
  rw [declare, Naming.bind_apply]
  refine (hwalk.map fun _ p hp => hp).congr ?_ fun _ _ => id
  rw [along_and, along_forall, along_fresh (Outline.mem_typeNames_addDeclaration n),
    ← List.filterMap_eq_flatMap_toList]
  simp [Fresh, Outline.typeNames, Outline.modelNames, Outline.enumNames, Outline.empty, typeNames]

end Pseudonym

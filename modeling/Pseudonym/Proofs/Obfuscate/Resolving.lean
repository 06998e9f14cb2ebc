/-
# Resolving references

When the second step of an obfuscation succeeds, and what its result refers
to. The look-ups of a registry translate one scope into another if they find
exactly the names of the first scope, and each at its place in the second.
Then every attribute is resolved exactly if its references are names of the
first scopes, and afterwards it refers to the same places of the second ones.
-/
import Pseudonym.Proofs.Obfuscate.Accepted
import Pseudonym.Proofs.Obfuscate.RenamedReferences

namespace Pseudonym

/-- A look-up that finds exactly the names of one scope, each at its place in another. -/
def Translates (look : String → Except Fault String) (old new : List String) : Prop :=
  ∀ name, Meets (look name) (name ∈ old) fun found => new.idxOf? found = old.idxOf? name

variable {r : Registry} {sign model : String} {old new : List String} {site : FieldSite}
  {type : FieldType} {sc sc' : FieldScopes}

/-! ### Lists of fields -/

namespace Value

theorem meets_resolveItem (h : Translates (r.resolveField model) old new) (v : Value) :
    Meets (v.resolveItem r sign model) (v.Names old) fun w => w.place? new = v.place? old := by
  cases v with
  | path segments =>
    match segments with
    | [name] => exact (h name).map fun _ _ hy => hy
    | [] => exact Meets.error _ id
    | _ :: _ :: _ => exact Meets.error _ id
  | _ => exact Meets.error _ id

theorem meets_resolveFields (h : Translates (r.resolveField model) old new) (v : Value) :
    Meets (v.resolveFields r sign model) (v.Lists old)
      fun w => w.listPlaces new = v.listPlaces old ∧ w.string? = none := by
  cases v with
  | array items =>
    exact (Meets.mapM_map fun v _ => meets_resolveItem h v).map fun _ ws hw => ⟨hw, rfl⟩
  | _ => exact Meets.error _ id

end Value

/-! ### What a field points at -/

/-- Whether the look-ups of a registry translate the scopes of the model that a field points at,
given the model's new name. Where the field points at no model, none is found. -/
inductive TargetTranslates (r : Registry) (target? : Option String) :
    Option (List String × List String) → Option (List String × List String) → Prop
  | none (hmodel : target?.filter (r.isModel ·) = none)
    (hrelation : ∀ name, ∃ e, r.resolveRelation (target?.getD "") name = .error e) :
    TargetTranslates r target? none none
  | some {target : String} {old new : List String × List String}
    (htarget : target? = some target) (hmodel : r.isModel target = true)
    (hkeys : Translates (r.resolveField target) old.1 new.1)
    (hrelations : Translates (r.resolveRelation target) old.2 new.2) :
    TargetTranslates r target? (some old) (some new)

/-- Whether the look-ups of a registry translate the values of the enum that a field points at,
given the enum's new name. -/
inductive ValuesTranslate (r : Registry) (target? : Option String) :
    Option (List String) → Option (List String) → Prop
  | none (henum : target?.filter (r.isEnum ·) = none) : ValuesTranslate r target? none none
  | some {target : String} {old new : List String} (htarget : target? = some target)
    (henum : r.isEnum target = true) (hvalues : Translates (r.resolveValue target) old new) :
    ValuesTranslate r target? (some old) (some new)

/-- Whether the look-ups of a registry translate the scopes around a field. -/
structure FieldScopes.Translates (r : Registry) (site : FieldSite) (sc sc' : FieldScopes) : Prop where
  keys : Pseudonym.Translates (r.resolveField site.model) sc.keys sc'.keys
  target : TargetTranslates r site.target? sc.target sc'.target
  values : ValuesTranslate r site.target? sc.values sc'.values

/-! ### Default values -/

namespace FieldSite

theorem isSome_placeholder? (type : FieldType) :
    (type.scalar?.bind placeholder?).isSome = type.takesLiteral := by
  cases type with
  | scalar s => cases s <;> rfl
  | _ => rfl

theorem place?_placeholder? {s : ScalarType} {v : Value} (h : placeholder? s = some v) :
    v.place? new = none ∧ v.array? = none := by
  cases s <;> cases h <;> exact ⟨rfl, rfl⟩

theorem meets_literalDefault (htype : site.type.scalar? = type.scalar?) :
    Meets site.literalDefault (type.takesLiteral = true)
      fun w => w.place? new = none ∧ w.array? = none := by
  unfold literalDefault
  rw [htype, ← isSome_placeholder? type]
  cases hp : type.scalar?.bind placeholder? with
  | none => exact Meets.error _ (by simp)
  | some v =>
    obtain ⟨s, -, hs⟩ := Option.bind_eq_some_iff.mp hp
    exact Meets.ok rfl (place?_placeholder? hs)

theorem meets_constantDefault (hvalues : ValuesTranslate r site.target? sc.values sc'.values)
    (segments : List String) :
    Meets (site.constantDefault r segments) ((Value.path segments).Names (sc.values.getD []))
      fun w => w.place? (sc'.values.getD []) = (Value.path segments).place? (sc.values.getD []) ∧
        w.array? = none := by
  unfold constantDefault
  generalize hv : sc.values = values at hvalues
  generalize hv' : sc'.values = values' at hvalues
  cases hvalues with
  | none henum =>
    rw [henum]
    refine Meets.error _ ?_
    match segments with
    | [name] => simp [Value.Names]
    | [] => exact id
    | _ :: _ :: _ => exact id
  | @some target _ _ htarget henum hlook =>
    have hfilter : site.target?.filter (r.isEnum ·) = some target := by
      rw [htarget, Option.filter, if_pos henum]
    rw [hfilter]
    match segments with
    | [name] => exact (hlook name).map fun _ _ hy => ⟨hy, rfl⟩
    | [] => exact Meets.error _ id
    | _ :: _ :: _ => exact Meets.error _ id

theorem meets_itemDefault (htype : site.type.scalar? = type.scalar?)
    (hvalues : ValuesTranslate r site.target? sc.values sc'.values) (v : Value) :
    Meets (site.itemDefault r v) (v.SuitsItem type sc.values)
      fun w => w.place? (sc'.values.getD []) = v.place? (sc.values.getD []) ∧
        w.array? = none := by
  cases v with
  | path segments => exact meets_constantDefault hvalues segments
  | call name args =>
    refine Meets.ok trivial ?_
    unfold callDefault
    split <;> exact ⟨rfl, rfl⟩
  | array items => exact Meets.error _ id
  | _ => exact meets_literalDefault htype

theorem defaultPlaces_of_array?_none {scope : List String} {v : Value} (h : v.array? = none) :
    v.defaultPlaces scope = [v.place? scope] := by
  cases v with
  | array items => cases h
  | _ => rfl

theorem meets_default (htype : site.type.scalar? = type.scalar?)
    (hvalues : ValuesTranslate r site.target? sc.values sc'.values) (v : Value) :
    Meets (site.default r v) (v.SuitsDefault type sc.values)
      fun w => w.defaultPlaces (sc'.values.getD []) = v.defaultPlaces (sc.values.getD []) := by
  have hitem := meets_itemDefault htype hvalues
  cases hv : v.array? with
  | some items =>
    obtain rfl := Value.eq_array_of_array? hv
    exact (Meets.mapM_map fun v _ => (hitem v).congr Iff.rfl fun _ w hw => hw.1).map
      fun _ ws hw => hw
  | none =>
    have hsuits : v.SuitsDefault type sc.values ↔ v.SuitsItem type sc.values := by
      cases v with
      | array items => cases hv
      | _ => exact Iff.rfl
    rw [default_of_array?_none r hv]
    refine (hitem v).congr hsuits.symm fun _ w hw => ?_
    rw [defaultPlaces_of_array?_none hw.2, defaultPlaces_of_array?_none hv, hw.1]

end FieldSite

/-! ### Attributes of fields -/

namespace Attribute

theorem meets_resolveDefault (htype : site.type.scalar? = type.scalar?)
    (h : sc.Translates r site sc') {a : Attribute} (hd : a.is "default" = true) :
    Meets (a.resolveDefault r site) (a.SuitsDefault type sc)
      fun b => b.name = a.name ∧ b.places sc' = a.places sc := by
  unfold resolveDefault SuitsDefault
  cases hargs : a.args with
  | nil => exact Meets.error _ (by simp)
  | cons first rest =>
    refine (((FieldSite.meets_default htype h.values first.value).map fun _ w hw => ?_).locate
      _).congr (by simp) fun _ _ => id
    have hb : ({ a with args := { first with value := w } :: rest } : Attribute).is "default" = true := hd
    refine ⟨rfl, ?_⟩
    simp only [places, hb, hd, ↓reduceIte, firstArg?, hargs, List.head?_cons, Option.map_some,
      Option.getD_some, hw]

/-! An argument that is replaced, and the arguments beside it. -/

theorem arg?_updateArg (a : Attribute) (x : String) (v : Value) :
    (a.updateArg x v).arg? x = (a.arg? x).map fun _ => v := by
  rw [updateArg_eq, arg?_mapFirst]

theorem arg?_updateArg_of_ne (a : Attribute) {x y : String} (h : x ≠ y) (v : Value) :
    (a.updateArg x v).arg? y = a.arg? y := by
  rw [updateArg_eq]
  exact arg?_mapArgs (Argument.find?_mapFirst_of_excludes (Argument.isNamed_excludes h _)) a

theorem declaresRelation_updateArg (a : Attribute) (x : String) (v : Value) :
    (a.updateArg x v).declaresRelation = a.declaresRelation := by
  rw [updateArg_eq, declaresRelation_mapFirst]

theorem relationName?_updateArg (a : Attribute) {x : String} (h : x ≠ "name") (v : Value) :
    (a.updateArg x v).relationName? = a.relationName? := by
  rw [updateArg_eq, relationName?, mapArgs_args,
    Argument.find?_mapFirst_of_excludes (Argument.isNamed_excludes_namesRelation h _)]
  rfl

/-- What is left of a relation when the name of its foreign key is replaced. -/
structure SameRelation (a b : Attribute) : Prop where
  name : b.name = a.name
  declares : b.declaresRelation = a.declaresRelation
  relation : b.relationName? = a.relationName?
  fields : b.arg? "fields" = a.arg? "fields"
  references : b.arg? "references" = a.arg? "references"

theorem meets_renameForeignKey (a : Attribute) :
    Meets (a.renameForeignKey site) (∀ v, a.arg? "map" = some v → v.string?.isSome = true)
      (SameRelation a) := by
  unfold renameForeignKey
  cases hmap : a.arg? "map" with
  | none => exact Meets.ok (by simp) ⟨rfl, rfl, rfl, rfl, rfl⟩
  | some v =>
    cases hv : v.string? with
    | none =>
      simp only [hv]
      refine Meets.error _ fun h => ?_
      simpa [hv] using h v rfl
    | some text =>
      simp only [hv]
      have hstring : ∀ w, some v = some w → w.string?.isSome = true := by
        rintro w ⟨⟩
        rw [hv]
        rfl
      exact Meets.ok hstring ⟨rfl, declaresRelation_updateArg _ _ _,
        relationName?_updateArg _ (by decide) _, arg?_updateArg_of_ne _ (by decide) _,
        arg?_updateArg_of_ne _ (by decide) _⟩

theorem meets_resolveRelationList {x : String} (h : Translates (r.resolveField model) old new)
    (a : Attribute) :
    Meets (a.resolveRelationList r site x model) (∃ v, a.arg? x = some v ∧ v.Lists old)
      fun b => ∃ v w, a.arg? x = some v ∧ b = a.updateArg x w ∧
        w.listPlaces new = v.listPlaces old := by
  unfold resolveRelationList
  cases harg : a.arg? x with
  | none => exact Meets.error _ (by simp)
  | some v =>
    refine (((Value.meets_resolveFields h v).map fun _ w hw => ?_).locate _).congr (by simp)
      fun _ _ => id
    exact ⟨v, w, rfl, rfl, hw.1⟩

theorem filter_isModel {target : String} (ht : site.target? = some target)
    (hm : r.isModel target = true) : site.target?.filter (r.isModel ·) = some target := by
  rw [ht, Option.filter, if_pos hm]

/-- The two lists of a relation refer to the places they did before. -/
structure SameLists (sc sc' : FieldScopes) (a b : Attribute) : Prop where
  name : b.name = a.name
  declares : b.declaresRelation = a.declaresRelation
  relation : b.relationName? = a.relationName?
  fields : ((b.arg? "fields").map (·.listPlaces sc'.keys)).getD [] =
    ((a.arg? "fields").map (·.listPlaces sc.keys)).getD []
  references : ((b.arg? "references").map (·.listPlaces ((sc'.target.map (·.1)).getD []))).getD [] =
    ((a.arg? "references").map (·.listPlaces ((sc.target.map (·.1)).getD []))).getD []

theorem meets_bothLists {target : String} {keys keys' : List String}
    (htarget : Translates (r.resolveField target) old new)
    (hkeys : Translates (r.resolveField model) keys keys') (a : Attribute) :
    Meets (do
        let a ← a.resolveRelationList r site "references" target
        a.resolveRelationList r site "fields" model)
      ((∃ v, a.arg? "references" = some v ∧ v.Lists old) ∧
        ∃ v, a.arg? "fields" = some v ∧ v.Lists keys)
      fun b => ∃ v v' w w', a.arg? "references" = some v ∧ a.arg? "fields" = some v' ∧
        b = (a.updateArg "references" w).updateArg "fields" w' ∧
        w.listPlaces new = v.listPlaces old ∧ w'.listPlaces keys' = v'.listPlaces keys := by
  refine (meets_resolveRelationList htarget a).bind fun _ b hb => ?_
  obtain ⟨v, w, hv, rfl, hw⟩ := hb
  have hfields : (a.updateArg "references" w).arg? "fields" = a.arg? "fields" :=
    arg?_updateArg_of_ne a (by decide) w
  refine (meets_resolveRelationList hkeys (a.updateArg "references" w)).congr (by rw [hfields])
    fun _ c hc => ?_
  obtain ⟨v', w', hv', rfl, hw'⟩ := hc
  exact ⟨v, v', w, w', hv, hfields ▸ hv', rfl, hw, hw'⟩

theorem meets_resolveRelationLists (h : sc.Translates r site sc') (a : Attribute) :
    Meets (a.resolveRelationLists r site) (a.SuitsLists sc) (SameLists sc sc' a) := by
  have htarget := h.target
  unfold resolveRelationLists SuitsLists
  generalize hs : sc.target = t at htarget
  generalize hs' : sc'.target = t' at htarget
  cases htarget with
  | none hmodel _ =>
    rw [hmodel]
    exact Meets.error _ (by simp)
  | @some target old new hsite hmodel hkeys _ =>
    rw [filter_isModel hsite hmodel]
    refine (meets_bothLists hkeys h.keys a).congr (by simp) fun _ b hb => ?_
    obtain ⟨v, v', w, w', hv, hv', rfl, hw, hw'⟩ := hb
    have hb : ((a.updateArg "references" w).updateArg "fields" w').arg? "references" = some w := by
      rw [arg?_updateArg_of_ne _ (by decide), arg?_updateArg, hv]
      rfl
    have hb' : ((a.updateArg "references" w).updateArg "fields" w').arg? "fields" = some w' := by
      rw [arg?_updateArg, arg?_updateArg_of_ne _ (by decide), hv']
      rfl
    refine ⟨rfl, ?_, ?_, ?_, ?_⟩
    · rw [declaresRelation_updateArg, declaresRelation_updateArg]
    · rw [relationName?_updateArg _ (by decide), relationName?_updateArg _ (by decide)]
    · rw [hb', hv']
      exact hw'
    · rw [hb, hv, hs, hs']
      exact hw

theorem declaresRelation_renameRelation (a : Attribute) (found : String) :
    (a.renameRelation found).declaresRelation = a.declaresRelation := by
  simp [renameRelation, declaresRelation, hasArg, Argument.setFirst_eq_mapFirst]

theorem relationName?_renameRelation {a : Attribute} {name : String}
    (h : a.relationName? = some name) (found : String) :
    (a.renameRelation found).relationName? = some found := by
  obtain ⟨arg, harg, -⟩ := Option.bind_eq_some_iff.mp h
  have hp : ∀ b : Argument, namesRelation b = true →
      namesRelation (b.mapValue fun _ => .string found) = true := by
    intro b hb
    have hname := (Bool.and_eq_true_iff.mp hb).1
    simpa [namesRelation, Value.string?] using hname
  simp only [relationName?, renameRelation, Argument.setFirst_eq_mapFirst,
    Argument.find?_mapFirst hp, harg]
  rfl

/-- An attribute of a field after its references are resolved. -/
structure Resolved (sc sc' : FieldScopes) (a b : Attribute) : Prop where
  name : b.name = a.name
  declared : b.declaredRelation? = a.declaredRelation?
  places : b.places sc' = a.places sc

theorem Resolved.of_sameLists {a b : Attribute} (hr : a.is "relation" = true)
    (hbare : a.bareRelation? = none) (h : SameLists sc sc' a b) : Resolved sc sc' a b := by
  have hi : ∀ x, b.is x = a.is x := fun x => by rw [is, is, h.name]
  have hn : a.is "default" = false := is_of_ne hr (by decide)
  have hbare' : b.bareRelation? = none := by
    rw [← hbare, bareRelation?, bareRelation?, h.declares, h.relation]
  refine ⟨h.name, ?_, ?_⟩
  · rw [declaredRelation?, declaredRelation?, hi, h.declares, h.relation]
  · simp only [Attribute.places, hi, hr, hn, Bool.false_eq_true, ↓reduceIte, h.fields, h.references,
      hbare, hbare']
    rfl

theorem Resolved.of_bare {a : Attribute} {name found : String} (hr : a.is "relation" = true)
    (hd : ¬a.declaresRelation = true) (hname : a.relationName? = some name)
    (hfound : ((sc'.target.map (·.2)).getD []).idxOf? found =
      ((sc.target.map (·.2)).getD []).idxOf? name) :
    Resolved sc sc' a (a.renameRelation found) := by
  have hi : ∀ x, (a.renameRelation found).is x = a.is x := fun x => rfl
  have hn : a.is "default" = false := is_of_ne hr (by decide)
  have hd' : ¬(a.renameRelation found).declaresRelation = true := by
    rwa [declaresRelation_renameRelation]
  refine ⟨rfl, ?_, ?_⟩
  · simp [declaredRelation?, hd, hd']
  · obtain ⟨hf, hf'⟩ := arg?_of_not_declares hd
    obtain ⟨hg, hg'⟩ := arg?_of_not_declares hd'
    simp only [Attribute.places, hi, hr, hn, Bool.false_eq_true, ↓reduceIte, hf, hf', hg, hg',
      bareRelation?, hd, hd', hname, relationName?_renameRelation hname, Option.bind_some, hfound]
    rfl

theorem meets_bareRelation (h : sc.Translates r site sc') {a : Attribute} {name : String}
    (hr : a.is "relation" = true) (hd : ¬a.declaresRelation = true)
    (hname : a.relationName? = some name) :
    Meets (do .ok (a.renameRelation (← r.resolveRelation (site.target?.getD "") name)))
      (∃ target, sc.target = some target ∧ name ∈ target.2) (Resolved sc sc' a) := by
  have htarget := h.target
  generalize hs : sc.target = t at htarget
  generalize hs' : sc'.target = t' at htarget
  cases htarget with
  | none _ hrelation =>
    obtain ⟨e, he⟩ := hrelation name
    rw [he]
    exact Meets.error e (by simp)
  | @some target _ _ hsite _ _ hrelations =>
    rw [hsite, Option.getD_some]
    refine ((hrelations name).map fun _ found hfound => ?_).congr (by simp) fun _ _ => id
    refine Resolved.of_bare hr hd hname ?_
    rw [hs, hs']
    exact hfound

theorem SameRelation.suitsTarget {a b : Attribute} (h : SameRelation a b) :
    b.SuitsTarget sc ↔ a.SuitsTarget sc := by
  simp only [SuitsTarget, SuitsLists, bareRelation?, h.declares, h.relation, h.fields, h.references]

theorem SameRelation.resolved {a b c : Attribute} (h : SameRelation a b)
    (hr : a.is "relation" = true) (hc : Resolved sc sc' b c) : Resolved sc sc' a c := by
  have hi : ∀ x, b.is x = a.is x := fun x => by rw [is, is, h.name]
  have hn : a.is "default" = false := is_of_ne hr (by decide)
  refine ⟨hc.name.trans h.name, hc.declared.trans ?_, hc.places.trans ?_⟩
  · rw [declaredRelation?, declaredRelation?, hi, h.declares, h.relation]
  · simp only [Attribute.places, hi, hr, hn, Bool.false_eq_true, ↓reduceIte, bareRelation?,
      h.declares, h.relation, h.fields, h.references]

/-- A relation is resolved by its name, where it has one and no lists, or else by its lists. -/
theorem meets_resolveTarget (h : sc.Translates r site sc') {a : Attribute}
    (hr : a.is "relation" = true) :
    Meets
      (if a.declaresRelation then a.resolveRelationLists r site
        else match a.relationName? with
          | some name => Fault.locate a.span.line do
            .ok (a.renameRelation (← r.resolveRelation (site.target?.getD "") name))
          | none => a.resolveRelationLists r site)
      (a.SuitsTarget sc) (Resolved sc sc' a) := by
  have hlists : a.bareRelation? = none →
      Meets (a.resolveRelationLists r site) (a.SuitsTarget sc) (Resolved sc sc' a) := by
    intro hbare
    refine (meets_resolveRelationLists h a).congr ?_ fun _ b hb => .of_sameLists hr hbare hb
    rw [SuitsTarget, hbare]
  by_cases hd : a.declaresRelation = true
  · rw [if_pos hd]
    exact hlists (by simp [bareRelation?, hd])
  rw [if_neg hd]
  cases hname : a.relationName? with
  | none => exact hlists (by simp [bareRelation?, hname])
  | some name =>
    have hbare : a.bareRelation? = some name := by simp [bareRelation?, hd, hname]
    refine ((meets_bareRelation h hr hd hname).locate _).congr ?_ fun _ _ => id
    rw [SuitsTarget, hbare]

theorem meets_resolveRelation (h : sc.Translates r site sc') {a : Attribute}
    (hr : a.is "relation" = true) :
    Meets (a.resolveRelation r site) (a.SuitsRelation sc) (Resolved sc sc' a) := by
  unfold resolveRelation SuitsRelation
  by_cases hargs : a.args = []
  · rw [if_pos (by simp [hargs])]
    exact Meets.error _ fun hs => hs.1 hargs
  rw [if_neg (by simp [hargs])]
  refine ((meets_renameForeignKey a).bind fun _ b hb => ?_).congr (and_iff_right hargs).symm
    fun _ _ => id
  have hbr : b.is "relation" = true := by rwa [is, hb.name]
  exact (meets_resolveTarget h hbr).congr hb.suitsTarget fun _ c hc => hb.resolved hr hc

/-- When an attribute of a field can be resolved. -/
def SuitsField (type : FieldType) (sc : FieldScopes) (a : Attribute) : Prop :=
  (a.is "default" = true → a.SuitsDefault type sc) ∧ (a.is "relation" = true → a.SuitsRelation sc)

theorem meets_resolveOnField (htype : site.type.scalar? = type.scalar?)
    (h : sc.Translates r site sc') (a : Attribute) :
    Meets (a.resolveOnField r site) (a.SuitsField type sc) (Resolved sc sc' a) := by
  unfold resolveOnField SuitsField
  by_cases hd : a.is "default" = true
  · have hr : a.is "relation" = false := is_of_ne hd (by decide)
    rw [if_pos hd]
    refine (meets_resolveDefault htype h hd).congr (by simp [hd, hr]) fun _ b hb => ?_
    have hi : b.is "relation" = a.is "relation" := by rw [is, is, hb.1]
    exact ⟨hb.1, by simp [declaredRelation?, hi, hr], hb.2⟩
  rw [if_neg hd]
  by_cases hr : a.is "relation" = true
  · rw [if_pos hr]
    exact (meets_resolveRelation h hr).congr (by simp [hd, hr]) fun _ _ => id
  · rw [if_neg hr]
    exact Meets.ok (by simp [hd, hr]) ⟨rfl, rfl, by simp [Attribute.places, hd, hr]⟩

/-! ### Attributes of models -/

theorem meets_resolveFirst (h : Translates (r.resolveField model) old new) (a : Attribute) :
    Meets (a.resolveFirst r sign model) (a.FirstLists old) fun b => ∃ first rest w,
      a.args = first :: rest ∧ b = { a with args := { first with value := w } :: rest } ∧
        w.listPlaces new = first.value.listPlaces old := by
  unfold resolveFirst FirstLists
  cases hargs : a.args with
  | nil => exact Meets.error _ (by simp)
  | cons first rest =>
    refine (((Value.meets_resolveFields h first.value).map fun _ w hw => ?_).locate _).congr
      (by simp) fun _ _ => id
    exact ⟨first, rest, w, rfl, rfl, hw.1⟩

theorem meets_renameIndex (number : Nat) (a : Attribute) :
    Meets (a.renameIndex model number) a.SecondNames
      fun b => b.name = a.name ∧ b.args.head? = a.args.head? := by
  unfold renameIndex SecondNames
  match hargs : a.args with
  | [] => exact Meets.error _ (by simp)
  | [_] => exact Meets.error _ (by simp)
  | first :: second :: rest =>
    simp only [List.cons.injEq]
    by_cases hmap : second.isNamed "map" = true
    · rw [if_pos hmap]
      cases hv : second.value.string? with
      | none =>
        refine Meets.error _ ?_
        rintro ⟨_, _, _, ⟨rfl, rfl, rfl⟩, -, hs⟩
        rw [hv] at hs
        cases hs
      | some text => exact Meets.ok ⟨first, second, rest, ⟨rfl, rfl, rfl⟩, hmap, by rw [hv]; rfl⟩ ⟨rfl, rfl⟩
    · rw [if_neg hmap]
      refine Meets.error _ ?_
      rintro ⟨_, _, _, ⟨rfl, rfl, rfl⟩, hs, -⟩
      exact hmap hs

/-- An attribute of a model after its references are resolved. -/
structure KeysResolved (old new : List String) (a b : Attribute) : Prop where
  name : b.name = a.name
  names : b.keyNames = a.keyNames
  places : b.keyPlaces new = a.keyPlaces old

theorem meets_resolveIndex (h : Translates (r.resolveField model) old new) (number : Nat)
    {a : Attribute} (hi : a.is "index" = true) :
    Meets (a.resolveIndex r model number) (a.FirstLists old ∧ a.SecondNames)
      (KeysResolved old new a) := by
  refine (meets_resolveFirst h a).bind fun _ b hb => ?_
  obtain ⟨first, rest, w, hargs, rfl, hw⟩ := hb
  refine (meets_renameIndex number _).congr ?_ fun _ c hc => ?_
  · simp only [SecondNames, hargs, List.cons.injEq]
    constructor
    · rintro ⟨_, second, tail, ⟨-, ht⟩, hs⟩
      exact ⟨first, second, tail, ⟨rfl, ht⟩, hs⟩
    · rintro ⟨_, second, tail, ⟨-, ht⟩, hs⟩
      exact ⟨_, second, tail, ⟨rfl, ht⟩, hs⟩
  · obtain ⟨hname, hhead⟩ := hc
    have hci : ∀ x, c.is x = a.is x := fun x => by rw [is, hname]; rfl
    have hu : a.is "unique" = false := is_of_ne hi (by decide)
    refine ⟨hname, by simp [keyNames, hci, hu], ?_⟩
    simp only [keyPlaces, hci, hi, Bool.true_or, ↓reduceIte, firstArg?, hhead, hargs,
      List.head?_cons, Option.map_some, Option.getD_some, hw]

theorem meets_resolveId (h : Translates (r.resolveField model) old new) {a : Attribute}
    (hi : a.is "id" = true) :
    Meets (a.resolveFirst r sign model) (a.FirstLists old) (KeysResolved old new a) := by
  refine (meets_resolveFirst h a).congr Iff.rfl fun _ b hb => ?_
  obtain ⟨first, rest, w, hargs, rfl, hw⟩ := hb
  have hu : a.is "unique" = false := is_of_ne hi (by decide)
  have hbi : ∀ x, ({ a with args := { first with value := w } :: rest } : Attribute).is x = a.is x :=
    fun _ => rfl
  refine ⟨rfl, by simp [keyNames, hbi, hu], ?_⟩
  simp only [keyPlaces, hbi, hi, Bool.or_true, ↓reduceIte, firstArg?, hargs, List.head?_cons,
    Option.map_some, Option.getD_some, hw]

theorem meets_resolveKeyArg (h : Translates (r.resolveField model) old new) (arg : Argument) :
    Meets (resolveKeyArg r model arg)
      (∀ items, arg.value.array? = some items → arg.value.Lists old)
      fun b => (b.value.listPlaces new, b.keyName?) = (arg.value.listPlaces old, arg.keyName?) := by
  unfold resolveKeyArg
  cases harr : arg.value.array? with
  | none =>
    have hnil : ∀ scope, arg.value.listPlaces scope = [] := by
      intro scope
      cases hv : arg.value with
      | array items => rw [hv] at harr; cases harr
      | _ => rfl
    exact Meets.ok (by simp) (by rw [hnil, hnil])
  | some items =>
    have hstring : arg.value.string? = none := by rw [Value.eq_array_of_array? harr]; rfl
    refine ((Value.meets_resolveFields h arg.value).map fun _ w hw => ?_).congr (by simp)
      fun _ _ => id
    have hkey : Argument.keyName? { arg with value := w } = arg.keyName? := by
      simp only [Argument.keyName?, hw.2, hstring]
      split <;> split <;> rfl
    rw [hkey, hw.1]

theorem meets_resolveUnique (h : Translates (r.resolveField model) old new) {a : Attribute}
    (hu : a.is "unique" = true) :
    Meets (a.resolveUnique r model) (a.UniqueLists old) (KeysResolved old new a) := by
  refine (((Meets.mapM_map fun arg _ => meets_resolveKeyArg h arg).map fun _ args hargs => ?_).locate
    _).congr Iff.rfl fun _ _ => id
  have hnot : a.is "index" = false ∧ a.is "id" = false :=
    ⟨is_of_ne hu (by decide), is_of_ne hu (by decide)⟩
  have hbi : ∀ x, ({ a with args } : Attribute).is x = a.is x := fun _ => rfl
  have hplaces := congrArg (List.map Prod.fst) hargs
  have hnames := congrArg (List.filterMap Prod.snd) hargs
  simp only [List.map_map, Function.comp_def] at hplaces
  simp only [List.filterMap_map, Function.comp_def] at hnames
  refine ⟨rfl, ?_, ?_⟩
  · simp only [keyNames, hbi, hu, ↓reduceIte, hnames]
  · simp only [keyPlaces, hbi, hu, hnot, Bool.or_self, Bool.false_eq_true, ↓reduceIte, hplaces]

/-- When an attribute of a model can be resolved. -/
def SuitsModel (keys : List String) (a : Attribute) : Prop :=
  (a.is "index" = true → a.FirstLists keys ∧ a.SecondNames) ∧
    (a.is "id" = true → a.FirstLists keys) ∧ (a.is "unique" = true → a.UniqueLists keys)

theorem meets_resolveOnModel (h : Translates (r.resolveField model) old new) (number : Nat)
    (a : Attribute) :
    Meets (a.resolveOnModel r model number) (a.SuitsModel old) (KeysResolved old new a) := by
  unfold resolveOnModel SuitsModel
  by_cases hi : a.is "index" = true
  · rw [if_pos hi]
    refine (meets_resolveIndex h number hi).congr ?_ fun _ _ => id
    simp [hi, is_of_ne hi (show "index" ≠ "id" by decide), is_of_ne hi (show "index" ≠ "unique" by decide)]
  rw [if_neg hi]
  by_cases hd : a.is "id" = true
  · rw [if_pos hd]
    refine (meets_resolveId h hd).congr ?_ fun _ _ => id
    simp [hi, hd, is_of_ne hd (show "id" ≠ "unique" by decide)]
  rw [if_neg hd]
  by_cases hu : a.is "unique" = true
  · rw [if_pos hu]
    exact (meets_resolveUnique h hu).congr (by simp [hi, hd, hu]) fun _ _ => id
  · rw [if_neg hu]
    exact Meets.ok (by simp [hi, hd, hu]) ⟨rfl, rfl, by simp [keyPlaces, hi, hd, hu]⟩

end Attribute

end Pseudonym

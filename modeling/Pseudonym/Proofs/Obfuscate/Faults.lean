/-
# Which fault is found

An obfuscation that fails names the first fault that it meets and the line of
it. What it meets depends on the names and the shape of a schema and on the
lines of its parts. It depends neither on how the values of enums are numbered
nor on the other positions in the text: two runs that differ in these alone
both succeed or both fail, with one and the same fault.

The new names of values are never looked at again before a default refers to
them, and there any of them will do. So the first step is followed with the
models alone in view, and the second one with nothing of its result.
-/
import Pseudonym.Proofs.Obfuscate.Spans
import Pseudonym.Proofs.Obfuscate.Twins

namespace Pseudonym

/-! ### Changes that keep the lines -/

/-- A change that keeps the lines on which identifiers and other parts stand. -/
structure Retouch.KeepsLines (R : Retouch) : Prop where
  ident : ∀ i, (R.ident i).span.line = i.span.line
  span : ∀ x, (R.span x).line = x.line
  unnumbered : Value.Unnumbered R.value

namespace Retouch

variable {R : Retouch}

theorem kind_value (v : Value) : (R.value v).kind = v.kind := by
  have h := R.touched v
  generalize R.value v = u at h ⊢
  cases h <;> rfl

theorem line_onAttribute (hR : R.KeepsLines) (a : Attribute) :
    (R.onAttribute a).span.line = a.span.line := hR.span a.span

theorem fault_onAttribute (hR : R.KeepsLines) (a : Attribute) (sign : String) (defect : Defect) :
    (R.onAttribute a).fault sign defect = a.fault sign defect := by
  rw [Attribute.fault, line_onAttribute hR, Attribute.fault]

theorem setFirst_onArgument {holds : Argument → Bool} (hp : ∀ a, holds (R.onArgument a) = holds a)
    (v : Value) : ∀ args : List Argument,
    Argument.setFirst holds (R.value v) (args.map R.onArgument) =
      (Argument.setFirst holds v args).map R.onArgument
  | [] => rfl
  | a :: rest => by
    simp only [List.map_cons, Argument.setFirst, hp]
    split
    · rfl
    · rw [setFirst_onArgument hp v rest, List.map_cons]

theorem updateArg_onAttribute (a : Attribute) (x : String) (v : Value) :
    (R.onAttribute a).updateArg x (R.value v) = R.onAttribute (a.updateArg x v) := by
  simp only [Attribute.updateArg, onAttribute]
  rw [setFirst_onArgument fun b => R.isNamed_onArgument b x]

theorem value_string (text : String) : R.value (.string text) = .string text :=
  R.value_literal _ rfl

theorem renameRelation_onAttribute (a : Attribute) (name : String) :
    (R.onAttribute a).renameRelation name = R.onAttribute (a.renameRelation name) := by
  simp only [Attribute.renameRelation, onAttribute]
  rw [← setFirst_onArgument R.namesRelation_onArgument, value_string]

theorem render_onType (type : FieldType) : (R.onType type).render = type.render := by
  cases type with
  | named ident => exact R.ident_name ident
  | _ => rfl

theorem reference?_onType (type : FieldType) :
    (R.onType type).reference?.map (·.name) = type.reference?.map (·.name) := by
  cases type with
  | named ident => exact congrArg some (R.ident_name ident)
  | _ => rfl

end Retouch

variable {R : Retouch}

/-! ### Declaring -/

namespace Attribute

variable (model field : String) (a : Attribute)

theorem twins_numberEnv (hR : R.KeepsLines) : Twins (fun b b' => b' = R.onAttribute b)
    (.numberEnv (a.numberEnv ·)) (.numberEnv ((R.onAttribute a).numberEnv ·)) := by
  refine .numberEnv fun n => ?_
  rw [Retouch.unseen_onAttribute hR.unnumbered n a]
  exact ⟨rfl, rfl⟩

theorem twins_declareRelation (hR : R.KeepsLines) : Twins (fun b b' => b' = R.onAttribute b)
    (a.declareRelation model) ((R.onAttribute a).declareRelation model) := by
  unfold declareRelation
  rw [R.declaresRelation_onAttribute, R.relationName?_onAttribute]
  split
  · cases a.relationName? with
    | none => exact .pure rfl
    | some name =>
      refine (Twins.register (Retouch.line_onAttribute hR a) fun r r' hr =>
        hr.twin_registerRelation model name).bind fun new new' hnew => ?_
      obtain rfl := hnew rfl
      exact .pure (Retouch.renameRelation_onAttribute a new')
  · exact .pure rfl

theorem twin_renameKey (arg : Argument) : Twin (fun b b' => b' = R.onArgument b)
    (renameKey model field arg) (renameKey model field (R.onArgument arg)) := by
  obtain ⟨name, value, span⟩ := arg
  cases name with
  | none =>
    simp only [renameKey, Retouch.onArgument, Option.map_none, Retouch.kind_value]
    exact .error _
  | some ident =>
    simp only [renameKey, Retouch.onArgument, Option.map_some, R.ident_name, R.string?_value,
      Retouch.kind_value]
    split
    · cases value.string? with
      | none => exact .error _
      | some old => exact .ok (by simp only [Option.map_some, Retouch.value_string])
    · exact .ok rfl

theorem twin_declareUnique (hR : R.KeepsLines) : Twin (fun b b' => b' = R.onAttribute b)
    (a.declareUnique model field) ((R.onAttribute a).declareUnique model field) := by
  have hargs := Twin.mapM (h := R.onArgument) fun arg (_ : arg ∈ a.args) =>
    twin_renameKey (R := R) model field arg
  unfold declareUnique
  rw [R.args_onAttribute]
  generalize a.args.mapM (renameKey model field) = x at hargs
  generalize (a.args.map R.onArgument).mapM (renameKey model field) = y at hargs
  cases hargs with
  | ok h =>
    obtain rfl := eq_map_of_forall₂ h
    exact .ok rfl
  | error e =>
    dsimp only
    rw [Retouch.fault_onAttribute hR]
    exact .error _

theorem twins_declareOnField (hR : R.KeepsLines) : Twins (fun b b' => b' = R.onAttribute b)
    (a.declareOnField model field) ((R.onAttribute a).declareOnField model field) := by
  refine (a.twins_numberEnv hR).bind ?_
  rintro b _ rfl
  rw [R.is_onAttribute, R.is_onAttribute]
  split
  · exact b.twins_declareRelation model hR
  · split
    · exact .ofExcept (b.twin_declareUnique model field hR)
    · exact .pure rfl

theorem twins_declareShorthand (hR : R.KeepsLines) (arg : Argument) :
    Twins (fun b b' => b' = R.onArgument b) (a.declareShorthand model arg)
      ((R.onAttribute a).declareShorthand model (R.onArgument arg)) := by
  obtain ⟨name, value, span⟩ := arg
  cases name with
  | none => exact .pure rfl
  | some ident =>
    simp only [declareShorthand, Retouch.onArgument, Option.map_some, R.ident_name, R.string?_value,
      Retouch.kind_value, Retouch.fault_onAttribute hR]
    split
    · cases value.string? with
      | none => exact .throw _
      | some old =>
        refine (Twins.register (Retouch.line_onAttribute hR a) fun r r' hr =>
          hr.twin_ensureField model old).bind fun new new' hnew => ?_
        obtain rfl := hnew rfl
        exact .pure (by simp only [Option.map_some, Retouch.value_string])
    · exact .throw _

theorem twins_declareOnModel (hR : R.KeepsLines) : Twins (fun b b' => b' = R.onAttribute b)
    (a.declareOnModel model) ((R.onAttribute a).declareOnModel model) := by
  refine (a.twins_numberEnv hR).bind ?_
  rintro b _ rfl
  rw [R.is_onAttribute, R.args_onAttribute]
  split
  · refine (Twins.mapM fun arg _ => b.twins_declareShorthand model hR arg).bind fun args args' h => ?_
    obtain rfl := eq_map_of_forall₂ h
    exact .pure rfl
  · exact .pure rfl

end Attribute

theorem Field.twins_declare (hR : R.KeepsLines) (model : String) (f : Field) :
    Twins (fun g g' => g' = R.onField g) (f.declare model) ((R.onField f).declare model) := by
  unfold declare
  simp only [Retouch.onField, R.ident_name]
  refine (Twins.register (hR.ident f.name) fun r r' hr =>
    hr.twin_registerField model f.name.name).bind fun new new' hnew => ?_
  obtain rfl := hnew rfl
  refine (Twins.mapM fun a _ => a.twins_declareOnField model new' hR).bind fun as as' h => ?_
  obtain rfl := eq_map_of_forall₂ h
  refine .pure ?_
  simp only [R.ident_rename, R.map_comment_cleared]

theorem ModelMember.twins_declare (hR : R.KeepsLines) (model : String) (member : ModelMember) :
    Twins (fun b b' => b' = R.onModelMember b) (member.declare model)
      ((R.onModelMember member).declare model) := by
  cases member with
  | field f =>
    refine (f.twins_declare hR model).map ?_
    rintro g _ rfl
    rfl
  | blockAttribute a =>
    refine (a.attr.twins_declareOnModel model hR).bind ?_
    rintro attr _ rfl
    refine .pure ?_
    simp only [Retouch.onModelMember, Retouch.onBlockAttribute, R.map_comment_cleared]
  | comment c => exact .pure (congrArg ModelMember.comment (R.comment_cleared c).symm)

/-- Retouches a model. -/
def Retouch.onModel (R : Retouch) (m : Model) : Model :=
  ⟨R.ident m.name, m.members.map R.onModelMember, R.span m.span⟩

theorem Model.twins_declare (hR : R.KeepsLines) (m : Model) :
    Twins (fun b b' => b' = R.onModel b) m.declare (R.onModel m).declare := by
  unfold declare
  simp only [Retouch.onModel, R.ident_name]
  refine (Twins.register (hR.ident m.name) fun r r' hr =>
    hr.twin_registerModel m.name.name).bind fun new new' hnew => ?_
  obtain rfl := hnew rfl
  refine (Twins.mapM fun member _ => member.twins_declare hR new').bind fun ms ms' h => ?_
  obtain rfl := eq_map_of_forall₂ h
  refine .pure ?_
  simp only [R.ident_rename]

theorem EnumMember.twins_declare (hR : R.KeepsLines) (enum : String) (member : EnumMember) :
    Twins (fun _ _ => True) (member.declare enum) ((R.onEnumMember member).declare enum) := by
  cases member with
  | value v =>
    simp only [EnumMember.declare, EnumValue.declare, Retouch.onEnumMember, R.ident_name]
    refine Twins.map (S := fun _ _ => True) ?_ fun _ _ h => h
    refine (Twins.register (hR.ident v.name) fun r r' hr =>
      hr.twin_registerValue enum v.name.name).bind fun new new' _ => ?_
    exact (Twins.mapM fun a _ => a.twins_numberEnv hR).bind fun as as' _ => .pure trivial
  | blockAttribute a => exact (a.attr.twins_numberEnv hR).bind fun _ _ _ => .pure trivial
  | comment c => exact .pure trivial

theorem ConfigMember.twins_declare (hR : R.KeepsLines) (member : ConfigMember) :
    Twins (fun _ _ => True) member.declare (R.onConfigMember member).declare := by
  cases member with
  | property p =>
    refine Twins.bind (S := fun _ _ => True) (.numberEnv fun n => ⟨trivial, ?_⟩)
      fun _ _ _ => .pure trivial
    rw [hR.unnumbered n p.value]
  | comment c => exact .pure trivial

/-- Only models matter from here on. -/
theorem Declaration.twins_declare (hR : R.KeepsLines) (d : Declaration) :
    Twins (fun b b' => b'.model? = b.model?.map R.onModel) d.declare
      (R.onDeclaration d).declare := by
  cases d with
  | config b =>
    refine Twins.map (S := fun _ _ => True) ?_ fun _ _ _ => rfl
    exact (Twins.mapM fun member _ => member.twins_declare hR).bind fun _ _ _ => .pure trivial
  | model m =>
    refine (m.twins_declare hR).map ?_
    rintro b _ rfl
    rfl
  | enum e =>
    refine Twins.map (S := fun _ _ => True) ?_ fun _ _ _ => rfl
    simp only [Enum.declare, R.ident_name]
    refine (Twins.register (hR.ident e.name) fun r r' hr =>
      hr.twin_registerEnum e.name.name).bind fun new new' hnew => ?_
    obtain rfl := hnew rfl
    exact (Twins.mapM fun member _ => member.twins_declare hR new').bind fun _ _ _ => .pure trivial
  | comments b => exact .pure rfl

/-- The first step, from two empty registries. -/
theorem Schema.twins_declare (hR : R.KeepsLines) (s : Schema) :
    Twins (fun t t' => List.Forall₂ (fun b b' : Declaration => b'.model? = b.model?.map R.onModel)
      t.declarations t'.declarations) s.declare (s.retouch R).declare :=
  (Twins.mapM fun d _ => d.twins_declare hR).bind fun _ _ h => .pure h

/-! ### Resolving -/

variable {r r' : Registry}

namespace Value

theorem twin_resolveItem (hr : r.SameNames r') (sign model : String) (v : Value) :
    Twin (fun u u' => u' = R.value u) (v.resolveItem r sign model)
      ((R.value v).resolveItem r' sign model) := by
  have h := R.touched v
  generalize R.value v = w at h
  cases h with
  | literal h => cases v <;> cases h <;> exact .error _
  | path segments =>
    match segments with
    | [] => exact .error _
    | [name] =>
      simp only [resolveItem, hr.resolveField]
      cases r.resolveField model name with
      | ok new => exact .ok (R.value_path [new]).symm
      | error e => exact .error e
    | _ :: _ :: _ => exact .error _
  | call name args args' => exact .error _
  | array items => exact .error _

theorem twin_resolveFields (hr : r.SameNames r') (sign model : String) (v : Value) :
    Twin (fun u u' => u' = R.value u) (v.resolveFields r sign model)
      ((R.value v).resolveFields r' sign model) := by
  have h := R.touched v
  generalize R.value v = w at h
  cases h with
  | array items =>
    refine (Twin.mapM fun item _ => twin_resolveItem hr sign model item).map fun is is' h => ?_
    rw [R.value_array, eq_map_of_forall₂ h]
  | literal h => cases v <;> cases h <;> exact .error _
  | path segments => exact .error _
  | call name args args' => exact .error _

end Value

/-- Retouches the type of a field. -/
def Retouch.onSite (R : Retouch) (site : FieldSite) : FieldSite :=
  { site with type := R.onType site.type }

namespace FieldSite

variable (site : FieldSite)

theorem target?_onSite : (R.onSite site).target? = site.target? := Retouch.reference?_onType site.type

theorem literalDefault_onSite : (R.onSite site).literalDefault = site.literalDefault := by
  simp only [literalDefault, Retouch.onSite, R.scalar?_onType, Retouch.render_onType]

theorem twin_constantDefault (hr : r.SameNames r') (segments : List String) :
    Twin (fun _ _ => True) (site.constantDefault r segments)
      ((R.onSite site).constantDefault r' segments) := by
  simp only [constantDefault, target?_onSite, hr.isEnum]
  cases site.target?.filter (r.isEnum ·) with
  | none =>
    simp only [Retouch.onSite, Retouch.render_onType]
    exact .error _
  | some enum =>
    rcases segments with _ | ⟨name, _ | ⟨second, rest⟩⟩
    · exact .error _
    · exact (hr.twin_resolveValue enum name).map fun _ _ _ => trivial
    · exact .error _

theorem twin_itemDefault (hr : r.SameNames r') (v : Value) :
    Twin (fun _ _ => True) (site.itemDefault r v) ((R.onSite site).itemDefault r' (R.value v)) := by
  have h := R.touched v
  generalize R.value v = w at h
  cases h with
  | literal h =>
    have hliteral : ∀ site : FieldSite, ∀ r, site.itemDefault r v = site.literalDefault := by
      intro site r
      cases v <;> cases h <;> rfl
    rw [hliteral, hliteral, literalDefault_onSite]
    cases site.literalDefault with
    | ok v => exact .ok trivial
    | error e => exact .error e
  | path segments => exact site.twin_constantDefault hr segments
  | call name args args' => exact .ok trivial
  | array items => exact .error _

theorem twin_default (hr : r.SameNames r') (v : Value) :
    Twin (fun _ _ => True) (site.default r v) ((R.onSite site).default r' (R.value v)) := by
  cases hv : v.array? with
  | some items =>
    rw [Value.eq_array_of_array? hv, R.value_array]
    exact (Twin.mapM fun item _ => site.twin_itemDefault hr item).map fun _ _ _ => trivial
  | none =>
    rw [default_of_array?_none _ hv, default_of_array?_none _ (R.array?_value hv)]
    exact site.twin_itemDefault hr v

end FieldSite

namespace Attribute

variable (site : FieldSite) (a : Attribute)

theorem twin_resolveDefault (hR : R.KeepsLines) (hr : r.SameNames r') :
    Twin (fun _ _ => True) (a.resolveDefault r site)
      ((R.onAttribute a).resolveDefault r' (R.onSite site)) := by
  unfold resolveDefault
  rw [R.args_onAttribute, Retouch.line_onAttribute hR, Retouch.fault_onAttribute hR]
  cases a.args with
  | nil => exact .error _
  | cons first rest =>
    exact ((site.twin_default hr first.value).map fun _ _ _ => trivial).locate _

theorem twin_renameForeignKey (hR : R.KeepsLines) :
    Twin (fun b b' => b' = R.onAttribute b) (a.renameForeignKey site)
      ((R.onAttribute a).renameForeignKey (R.onSite site)) := by
  unfold renameForeignKey
  rw [R.arg?_onAttribute]
  cases a.arg? "map" with
  | none => exact .ok rfl
  | some value =>
    simp only [Option.map_some, R.string?_value, Retouch.kind_value, Retouch.fault_onAttribute hR]
    cases value.string? with
    | none => exact .error _
    | some _ =>
      refine .ok ?_
      rw [← Retouch.updateArg_onAttribute, Retouch.value_string]
      rfl

theorem twin_resolveRelationList (hR : R.KeepsLines) (hr : r.SameNames r') (name model : String) :
    Twin (fun b b' => b' = R.onAttribute b) (a.resolveRelationList r site name model)
      ((R.onAttribute a).resolveRelationList r' (R.onSite site) name model) := by
  unfold resolveRelationList
  rw [R.arg?_onAttribute, Retouch.line_onAttribute hR, Retouch.fault_onAttribute hR]
  cases a.arg? name with
  | none => exact .error _
  | some value =>
    refine ((Value.twin_resolveFields hr "@relation" model value).map ?_).locate _
    rintro v _ rfl
    exact Retouch.updateArg_onAttribute a name v

theorem twin_resolveRelationLists (hR : R.KeepsLines) (hr : r.SameNames r') :
    Twin (fun b b' => b' = R.onAttribute b) (a.resolveRelationLists r site)
      ((R.onAttribute a).resolveRelationLists r' (R.onSite site)) := by
  simp only [resolveRelationLists, FieldSite.target?_onSite, hr.isModel,
    Retouch.fault_onAttribute hR]
  cases site.target?.filter (r.isModel ·) with
  | none => exact .error _
  | some target =>
    refine (a.twin_resolveRelationList site hR hr "references" target).bind ?_
    rintro b _ rfl
    exact b.twin_resolveRelationList site hR hr "fields" site.model

theorem twin_resolveRelation (hR : R.KeepsLines) (hr : r.SameNames r') :
    Twin (fun b b' => b' = R.onAttribute b) (a.resolveRelation r site)
      ((R.onAttribute a).resolveRelation r' (R.onSite site)) := by
  unfold resolveRelation
  rw [R.args_onAttribute, List.isEmpty_map, Retouch.fault_onAttribute hR]
  split
  · exact .error _
  refine (a.twin_renameForeignKey site hR).bind ?_
  rintro b _ rfl
  rw [R.declaresRelation_onAttribute, R.relationName?_onAttribute]
  split
  · exact b.twin_resolveRelationLists site hR hr
  cases b.relationName? with
  | none => exact b.twin_resolveRelationLists site hR hr
  | some name =>
    dsimp only
    rw [Retouch.line_onAttribute hR, FieldSite.target?_onSite, hr.resolveRelation]
    cases r.resolveRelation (site.target?.getD "") name with
    | ok new => exact .ok (Retouch.renameRelation_onAttribute b new)
    | error e => exact .error _

theorem twin_resolveOnField (hR : R.KeepsLines) (hr : r.SameNames r') :
    Twin (fun _ _ => True) (a.resolveOnField r site)
      ((R.onAttribute a).resolveOnField r' (R.onSite site)) := by
  unfold resolveOnField
  rw [R.is_onAttribute, R.is_onAttribute]
  split
  · exact a.twin_resolveDefault site hR hr
  · split
    · exact (a.twin_resolveRelation site hR hr).mono fun _ _ _ => trivial
    · exact .ok trivial

theorem twin_resolveFirst (hR : R.KeepsLines) (hr : r.SameNames r') (sign model : String) :
    Twin (fun b b' => b' = R.onAttribute b) (a.resolveFirst r sign model)
      ((R.onAttribute a).resolveFirst r' sign model) := by
  unfold resolveFirst
  rw [R.args_onAttribute, Retouch.line_onAttribute hR, Retouch.fault_onAttribute hR]
  cases a.args with
  | nil => exact .error _
  | cons first rest =>
    refine ((Value.twin_resolveFields hr sign model first.value).map ?_).locate _
    rintro v _ rfl
    rfl

theorem twin_renameIndex (hR : R.KeepsLines) (model : String) (number : Nat) :
    Twin (fun _ _ => True) (a.renameIndex model number)
      ((R.onAttribute a).renameIndex model number) := by
  unfold renameIndex
  rw [R.args_onAttribute]
  simp only [Retouch.fault_onAttribute hR]
  match a.args with
  | [] => exact .error _
  | [_] => exact .error _
  | fields :: second :: rest =>
    simp only [List.map_cons, R.isNamed_onArgument, R.value_onArgument, R.string?_value,
      Retouch.kind_value]
    split
    · cases second.value.string? with
      | none => exact .error _
      | some _ => exact .ok trivial
    · exact .error _

theorem twin_resolveKeyArg (hr : r.SameNames r') (model : String) (arg : Argument) :
    Twin (fun _ _ => True) (resolveKeyArg r model arg) (resolveKeyArg r' model (R.onArgument arg)) := by
  unfold resolveKeyArg
  rw [R.value_onArgument]
  cases hv : arg.value.array? with
  | none =>
    rw [R.array?_value hv]
    exact .ok trivial
  | some items =>
    have hlist := Value.twin_resolveFields (R := R) hr "@@unique" model arg.value
    rw [Value.eq_array_of_array? hv, R.value_array] at hlist ⊢
    exact hlist.map fun _ _ _ => trivial

theorem twin_resolveOnModel (hR : R.KeepsLines) (hr : r.SameNames r') (model : String)
    (number : Nat) :
    Twin (fun _ _ => True) (a.resolveOnModel r model number)
      ((R.onAttribute a).resolveOnModel r' model number) := by
  unfold resolveOnModel
  rw [R.is_onAttribute, R.is_onAttribute, R.is_onAttribute]
  split
  · refine (a.twin_resolveFirst hR hr "@@index" model).bind ?_
    rintro b _ rfl
    exact b.twin_renameIndex hR model number
  split
  · exact (a.twin_resolveFirst hR hr "@@id" model).mono fun _ _ _ => trivial
  split
  · unfold resolveUnique
    rw [Retouch.line_onAttribute hR]
    exact ((Twin.mapM fun arg _ => twin_resolveKeyArg hr model arg).map fun _ _ _ => trivial).locate _
  · exact .ok trivial

end Attribute

theorem FieldType.twin_resolve (hR : R.KeepsLines) (hr : r.SameNames r') (type : FieldType) :
    Twin (fun t t' => t' = R.onType t) (type.resolve r) ((R.onType type).resolve r') := by
  cases type with
  | scalar type => exact .ok rfl
  | unsupported text => exact .ok rfl
  | named ident =>
    simp only [resolve, Retouch.onType, R.ident_name, hR.ident, hr.resolveType]
    split
    · exact .ok rfl
    · cases r.resolveType ident.name with
      | ok new => exact .ok (congrArg FieldType.named (R.ident_rename ident new).symm)
      | error e => exact .error _

theorem Field.twin_resolve (hR : R.KeepsLines) (hr : r.SameNames r') (model : String) (f : Field) :
    Twin (fun _ _ => True) (f.resolve r model) ((R.onField f).resolve r' model) := by
  refine (f.type.twin_resolve hR hr).bind ?_
  rintro type _ rfl
  simp only [Retouch.onField, R.ident_name]
  exact (Twin.mapM fun a _ => a.twin_resolveOnField ⟨model, f.name.name, type⟩ hR hr).map
    fun _ _ _ => trivial

theorem ModelMember.twin_resolveEach (hR : R.KeepsLines) (hr : r.SameNames r') (model : String) :
    ∀ (number : Nat) (members : List ModelMember), Twin (fun _ _ => True)
      (resolveEach r model number members)
      (resolveEach r' model number (members.map R.onModelMember))
  | _, [] => .ok trivial
  | number, .field f :: rest =>
    (f.twin_resolve hR hr model).bind fun _ _ _ =>
      (twin_resolveEach hR hr model number rest).map fun _ _ _ => trivial
  | number, .blockAttribute a :: rest => by
    refine (a.attr.twin_resolveOnModel hR hr model number).bind fun _ _ _ => ?_
    simp only [Retouch.onBlockAttribute, R.is_onAttribute]
    exact (twin_resolveEach hR hr model _ rest).map fun _ _ _ => trivial
  | number, .comment c :: rest =>
    (twin_resolveEach hR hr model number rest).map fun _ _ _ => trivial

theorem Declaration.twin_resolve (hR : R.KeepsLines) (hr : r.SameNames r') {d d' : Declaration}
    (h : d'.model? = d.model?.map R.onModel) :
    Twin (fun _ _ => True) (d.resolve r) (d'.resolve r') := by
  have hnone : ∀ (d : Declaration) (r : Registry), d.model? = none → d.resolve r = .ok d := by
    intro d r hd
    cases d with
    | model m => cases hd
    | _ => rfl
  cases hd : d.model? with
  | none =>
    rw [hd] at h
    rw [hnone d r hd, hnone d' r' h]
    exact .ok trivial
  | some m =>
    rw [hd] at h
    obtain rfl : d = .model m := by cases d <;> cases hd; rfl
    obtain rfl : d' = .model (R.onModel m) := by cases d' <;> cases h; rfl
    simp only [resolve, Model.resolve, Retouch.onModel, R.ident_name]
    exact ((ModelMember.twin_resolveEach hR hr m.name.name 0 m.members).map
      (T := fun _ _ => True) fun _ _ _ => trivial).map fun _ _ _ => trivial

/-- How values are numbered, and a change that keeps the lines, are not seen by a fault. -/
theorem Schema.twin_retouch (hR : R.KeepsLines) (n n' : Numbering) (s : Schema) :
    Twin (fun _ _ => True) (s.obfuscate n) ((s.retouch R).obfuscate n') := by
  refine (s.twins_declare hR _ _ (Registry.sameNames_new n n')).bind ?_
  rintro ⟨t, r⟩ ⟨t', r'⟩ ⟨hds, hr⟩
  have hresolve : Twin (fun _ _ => True) (t.declarations.mapM (·.resolve r))
      (t'.declarations.mapM (·.resolve r')) := by
    dsimp only at hds hr
    generalize t.declarations = ds at hds
    generalize t'.declarations = ds' at hds
    induction hds with
    | nil => exact .ok trivial
    | cons h _ ih =>
      rw [List.mapM_cons, List.mapM_cons]
      exact (Declaration.twin_resolve hR hr h).bind fun _ _ _ => ih.map fun _ _ _ => trivial
  exact (hresolve.map (T := fun _ _ => True) fun _ _ _ => trivial).map fun _ _ _ => trivial

theorem Retouch.keepsLines_onLine : (Retouch.mapSpan (Span.onLine 0)).KeepsLines :=
  ⟨fun _ => rfl, fun _ => rfl, Value.numberEnv_mapSpan _⟩

/-- **One fault.** How values are numbered and where in its line a part of the schema stands
changes neither whether an obfuscation fails nor the fault it fails with. -/
theorem Schema.twin_obfuscate {s s' : Schema} (h : s.onLines 0 = s'.onLines 0) (n n' : Numbering) :
    Twin (fun _ _ => True) (s.obfuscate n) (s'.obfuscate n') := by
  have hs := s.twin_retouch Retouch.keepsLines_onLine n n
  have hs' := s'.twin_retouch Retouch.keepsLines_onLine n' n
  rw [← onLines] at hs hs'
  rw [← h] at hs'
  exact hs.trans hs'.symm fun _ _ _ _ _ => trivial

end Pseudonym

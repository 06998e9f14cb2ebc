/-
# Noninterference

The names that an author chose do not show in the obfuscated schema. Take two
schemas that differ by an injective renaming of their names, scope by scope,
and in texts that an obfuscation does not read. Both are obfuscated to the same
schema, or both are refused for the same reason on the same line; only the name
that a message quotes may differ. The two registries give the names of one
outline and of the renamed outline the same new names.
-/
import Pseudonym.Proofs.Obfuscate.Unread

namespace Pseudonym

variable {model field : String} {type : FieldType} {r : Registry} {site : FieldSite}

/-! ### Declaring a blanked schema -/

theorem countsEnv_eq : CountsEnv Eq := by
  rintro r _ rfl
  exact ⟨rfl, fun _ => rfl⟩

theorem Follows.same {α : Type} {S : α → α → Prop} (hS : ∀ a, S a a) (x : Naming α) :
    Follows Eq S x x := by
  rintro r _ rfl
  exact (Alike.refl (x r)).mono fun p _ h => h ▸ ⟨hS p.1, rfl⟩

namespace Attribute

theorem numberEnv_blankEnv (n : Nat) (a : Attribute) : a.blankEnv.numberEnv n = a.numberEnv n := by
  simp [numberEnv, blankEnv, Argument.numberEnvEach_blankEnvEach]

theorem declareOnField_blankEnv (a : Attribute) :
    a.blankEnv.declareOnField model field = a.declareOnField model field := by
  simp only [declareOnField, numberEnv_blankEnv]

theorem declareOnModel_blankEnv (a : Attribute) :
    a.blankEnv.declareOnModel model = a.declareOnModel model := by
  simp only [declareOnModel, numberEnv_blankEnv]

@[simp] theorem blankKey_is (a : Attribute) (x : String) : a.blankKey.is x = a.is x := by
  unfold blankKey
  split <;> rfl

theorem numberEnv_blankKey (n : Nat) (a : Attribute) :
    a.blankKey.numberEnv n = ((a.numberEnv n).1.blankKey, (a.numberEnv n).2) := by
  simp only [blankKey, numberEnv_is]
  by_cases h : a.is "unique" = true
  · simp only [h, ↓reduceIte]
    refine numberEnv_mapArgs (Argument.numberEnvEach_map (fun k arg => ?_) _ _)
    have hv := Value.unnumbered_mapString keyShape k
    rw [Argument.mapValue_isNamed]
    split
    · exact ⟨by simp [hv], by simp [hv]⟩
    · exact ⟨rfl, rfl⟩
  · simp [h]

/-- The new name of a key keeps a point of the old one, and nothing else. -/
theorem uniqueKeyName_keyShape (old : String) :
    uniqueKeyName model field (keyShape old) = uniqueKeyName model field old := by
  unfold uniqueKeyName keyShape
  by_cases h : old.toList.contains '.' = true
  · simp only [h, ↓reduceIte]
    rfl
  · simp only [h]
    rfl

theorem declareUnique_blankKey (a : Attribute) (h : a.is "unique" = true) :
    a.blankKey.declareUnique model field = a.declareUnique model field := by
  have harg : ∀ arg : Argument, renameKey model field
      (if arg.isNamed "map" then arg.mapValue (.mapString keyShape) else arg) =
        renameKey model field arg := by
    intro arg
    by_cases hn : arg.isNamed "map" = true
    · obtain ⟨ident, hi, hx⟩ := Argument.isNamed_iff.mp hn
      simp only [hn, ↓reduceIte, renameKey, Argument.mapValue_name, hi, hx, beq_self_eq_true,
        Argument.mapValue_value, Value.string?_mapString, Value.kind_mapString]
      cases arg.value.string? with
      | none => rfl
      | some old => simp [uniqueKeyName_keyShape, Argument.mapValue]
    · simp [hn]
  have hargs : a.blankKey.args.mapM (renameKey model field) =
      a.args.mapM (renameKey model field) := by
    simp only [blankKey, h, ↓reduceIte, mapArgs_args, List.mapM_map,
      Function.comp_def, harg]
  unfold declareUnique
  rw [hargs]
  simp [blankKey, h, fault]

theorem follows_blankKey (a : Attribute) :
    Follows Eq Eq (a.declareOnField model field) (a.blankKey.declareOnField model field) := by
  refine (follows_numberEnv countsEnv_eq fun k => numberEnv_blankKey k a).bind ?_
  rintro a _ rfl
  simp only [blankKey_is]
  by_cases h : a.is "unique" = true
  · have hr : a.is "relation" = false := is_of_ne h (by decide)
    simp only [hr, h, ↓reduceIte, declareUnique_blankKey a h]
    exact Follows.same (fun _ => rfl) _
  · simp only [blankKey, h]
    exact Follows.same (fun _ => rfl) _

theorem isEmpty_blankForeignKey (args : List Argument) :
    (blankForeignKey args).isEmpty = args.isEmpty := Argument.isEmpty_mapFirst _ _ args

theorem blankForeignKey_blankForeignKey (args : List Argument) :
    blankForeignKey (blankForeignKey args) = blankForeignKey args := by
  have h := Argument.mapFirst_mapFirst (p := (·.isNamed "map")) (f := .mapString fun _ => "")
    (g := .mapString fun _ => "") (fun _ => id) args
  refine h.trans (Argument.mapFirst_congr (fun a _ => ?_) args)
  cases a.value <;> rfl

theorem blankOnField_of_default {a : Attribute} (h : a.is "default" = true)
    (keep : List Argument → List Argument) :
    a.blankOnField type keep = a.mapArgs (Argument.mapHead (.blankDefault type keep)) := by
  simp only [blankOnField, h, ↓reduceIte]

theorem blankOnField_of_relation {a : Attribute} (h : a.is "relation" = true)
    (keep : List Argument → List Argument) :
    a.blankOnField type keep = a.mapArgs blankForeignKey := by
  have hn : a.is "default" = false := is_of_ne h (by decide)
  simp only [blankOnField, hn, h, ↓reduceIte, Bool.false_eq_true]

theorem blankOnField_of_relation_blank {a : Attribute} (h : a.is "relation" = true) :
    (a.mapArgs blankForeignKey).blankOnField type (fun _ => []) =
      a.blankOnField type fun _ => [] := by
  rw [blankOnField_of_relation h, blankOnField_of_relation (by simpa using h)]
  simp only [mapArgs, blankForeignKey_blankForeignKey]

theorem relationName?_blankForeignKey (a : Attribute) :
    (a.mapArgs blankForeignKey).relationName? = a.relationName? := by
  unfold relationName? blankForeignKey
  rw [mapArgs_args,
    Argument.find?_mapFirst_of_excludes (Argument.isNamed_excludes_namesRelation (by decide) _)]

theorem renameRelation_blankForeignKey (a : Attribute) (new : String) :
    (a.mapArgs blankForeignKey).renameRelation new =
      (a.renameRelation new).mapArgs blankForeignKey := by
  simp only [renameRelation, mapArgs, Argument.setFirst_eq_mapFirst, blankForeignKey]
  rw [Argument.mapFirst_comm (Argument.namesRelation_excludes (by decide) _)
    (Argument.isNamed_excludes_namesRelation (by decide) _)]

theorem follows_blankRelation {a : Attribute} (h : a.is "relation" = true) :
    Follows Eq (fun a b => a.blankOnField type (fun _ => []) = b.blankOnField type fun _ => [])
      (a.declareRelation model) ((a.mapArgs blankForeignKey).declareRelation model) := by
  have hd : (a.mapArgs blankForeignKey).declaresRelation = a.declaresRelation := by
    simp [blankForeignKey]
  unfold declareRelation
  rw [hd, relationName?_blankForeignKey]
  refine Follows.ite Iff.rfl (fun _ => ?_) fun _ => Follows.pure (blankOnField_of_relation_blank h).symm
  cases a.relationName? with
  | none => exact Follows.pure (blankOnField_of_relation_blank h).symm
  | some name =>
    refine (Follows.same (S := Eq) (fun _ => rfl) _).bind ?_
    rintro new _ rfl
    refine Follows.pure ?_
    rw [renameRelation_blankForeignKey]
    exact (blankOnField_of_relation_blank (a := a.renameRelation new) h).symm

theorem numberEnvEach_blankDefault (type : FieldType) (n : Nat) (args : List Argument) :
    Argument.mapHead (.blankDefault type fun _ => []) (Argument.numberEnvEach n args).1 =
        Argument.mapHead (.blankDefault type fun _ => []) (Argument.numberEnvEach n
          (Argument.mapHead (.blankDefault type Argument.envOnly) args)).1 ∧
      (Argument.numberEnvEach n args).2 = (Argument.numberEnvEach n
        (Argument.mapHead (.blankDefault type Argument.envOnly) args)).2 := by
  cases args with
  | nil => exact ⟨rfl, rfl⟩
  | cons first rest =>
    obtain ⟨h1, h2⟩ := Value.numberEnv_blankDefault type n first.value
    simp only [Argument.mapHead, Argument.numberEnvEach_cons, Argument.mapValue_value,
      Argument.mapValue_mapValue, ← h2]
    exact ⟨congrArg (· :: _) (Argument.mapValue_congr h1), trivial⟩

theorem follows_blankOnField (a : Attribute) :
    Follows Eq (fun a b => a.blankOnField type (fun _ => []) = b.blankOnField type fun _ => [])
      (a.declareOnField model field)
      ((a.blankOnField type Argument.envOnly).declareOnField model field) := by
  by_cases hr : a.is "relation" = true
  · rw [blankOnField_of_relation hr]
    refine Follows.bind (S := fun x y => x.is "relation" = true ∧ y = x.mapArgs blankForeignKey)
      (Follows.numberEnv countsEnv_eq fun k => ?_) ?_
    · rw [numberEnv_mapArgs (f := blankForeignKey) (Argument.numberEnvEach_mapFirst
        (Argument.unnumbered_isNamed "map") (Value.unnumbered_mapString _) _ _)]
      exact ⟨⟨hr, rfl⟩, rfl⟩
    · rintro a _ ⟨hr, rfl⟩
      simp only [mapArgs_is, hr, ↓reduceIte]
      exact follows_blankRelation hr
  by_cases hd : a.is "default" = true
  · have hu : a.is "unique" = false := is_of_ne hd (by decide)
    refine Follows.bind (S := fun x y => x.name = a.name ∧ y.name = a.name ∧
        x.blankOnField type (fun _ => []) = y.blankOnField type fun _ => [])
      (Follows.numberEnv countsEnv_eq fun k => ?_) ?_
    · obtain ⟨h1, h2⟩ := numberEnvEach_blankDefault type k a.args
      rw [blankOnField_of_default hd]
      refine ⟨⟨rfl, rfl, ?_⟩, h2⟩
      rw [blankOnField_of_default (a := (a.numberEnv k).1) hd,
        blankOnField_of_default (a := ((a.mapArgs _).numberEnv k).1) hd]
      exact congrArg (Attribute.mk a.name · a.span) h1
    · rintro x y ⟨hx, hy, hxy⟩
      have hxi : ∀ z, x.is z = a.is z := fun z => by rw [is, hx]; rfl
      have hyi : ∀ z, y.is z = a.is z := fun z => by rw [is, hy]; rfl
      simp only [hxi, hyi, hr, hu, Bool.false_eq_true, ↓reduceIte]
      exact Follows.pure hxy
  · have hid : a.blankOnField type Argument.envOnly = a := by simp [blankOnField, hr, hd]
    rw [hid]
    refine Follows.same (fun _ => ?_) _
    rfl

/-! ### Attributes of models -/

theorem blankSecond_blankSecond (args : List Argument) :
    blankSecond (blankSecond args) = blankSecond args := by
  match args with
  | [] => rfl
  | [_] => rfl
  | first :: second :: rest =>
    simp only [blankSecond]
    by_cases h : second.isNamed "map" = true
    · simp only [h, ↓reduceIte, Argument.mapValue_isNamed, Argument.mapValue_mapValue]
      exact congrArg (first :: · :: rest) (Argument.mapValue_congr (by cases second.value <;> rfl))
    · simp [h]

theorem numberEnvEach_blankSecond (n : Nat) (args : List Argument) :
    Argument.numberEnvEach n (blankSecond args) =
      (blankSecond (Argument.numberEnvEach n args).1, (Argument.numberEnvEach n args).2) := by
  match args with
  | [] => rfl
  | [a] => simp [blankSecond, Argument.numberEnvEach_cons, Argument.numberEnvEach]
  | first :: second :: rest =>
    have hv : ∀ k v, (Value.mapString (fun _ => "") v).numberEnv k = _ :=
      Value.unnumbered_mapString fun _ => ""
    by_cases h : second.isNamed "map" = true
    · simp [blankSecond, Argument.numberEnvEach_cons, h, hv]
    · simp [blankSecond, Argument.numberEnvEach_cons, h]

theorem follows_blankIndex (a : Attribute) :
    Follows Eq (fun a b => a.blankIndex = b.blankIndex) (a.declareOnModel model)
      (a.blankIndex.declareOnModel model) := by
  by_cases hi : a.is "index" = true
  · have hu : a.is "unique" = false := is_of_ne hi (by decide)
    have hb : a.blankIndex = a.mapArgs blankSecond := by simp [blankIndex, hi]
    rw [hb]
    refine Follows.bind (S := fun x y => x.name = a.name ∧ y = x.mapArgs blankSecond)
      (Follows.numberEnv countsEnv_eq fun k => ?_) ?_
    · rw [numberEnv_mapArgs (numberEnvEach_blankSecond k a.args)]
      exact ⟨⟨rfl, rfl⟩, rfl⟩
    · rintro x _ ⟨hx, rfl⟩
      have hxi : ∀ z, x.is z = a.is z := fun z => by rw [is, hx]; rfl
      simp only [mapArgs_is, hxi, hu, Bool.false_eq_true, ↓reduceIte]
      refine Follows.pure ?_
      simp [blankIndex, hxi, hi, mapArgs, blankSecond_blankSecond]
  · have hid : a.blankIndex = a := by simp [blankIndex, hi]
    rw [hid]
    refine Follows.same (fun _ => ?_) _
    rfl

end Attribute

/-! ### Blocks -/

/-- The field with everything blanked that the second step does not read. -/
def Field.view (f : Field) : Field :=
  { f with attributes := f.attributes.map (·.blankOnField f.type fun _ => []) }

/-- The line of a model with everything blanked that the second step does not read. -/
def ModelMember.view : ModelMember → ModelMember
  | .field f => .field f.view
  | .blockAttribute a => .blockAttribute { a with attr := a.attr.blankIndex }
  | .comment c => .comment c

@[simp] theorem ModelMember.view_field (f : Field) : (ModelMember.field f).view = .field f.view := rfl

@[simp] theorem ModelMember.view_blockAttribute (a : BlockAttribute) :
    (ModelMember.blockAttribute a).view = .blockAttribute { a with attr := a.attr.blankIndex } := rfl

@[simp] theorem ModelMember.view_comment (c : Comment) :
    (ModelMember.comment c).view = .comment c := rfl

/-- The declaration with everything blanked that the second step does not read. -/
def Declaration.view : Declaration → Declaration
  | .model m => .model { m with members := m.members.map (·.view) }
  | d => d

theorem cleared_cleared (c : Option Comment) :
    (c.map (·.cleared)).map (·.cleared) = c.map (·.cleared) := by
  cases c <;> rfl

/-- The field's attributes before the names of environment variables are blanked. -/
theorem Attribute.follows_blanked (type : FieldType) (a : Attribute) :
    Follows Eq (fun a b => a.blankOnField type (fun _ => []) = b.blankOnField type fun _ => [])
      (a.declareOnField model field)
      ((a.blankOnField type Argument.envOnly).blankKey.blankEnv.declareOnField model field) := by
  rw [Attribute.declareOnField_blankEnv]
  rintro r _ rfl
  refine (a.follows_blankOnField r r rfl).trans (Attribute.follows_blankKey _ r r rfl) ?_
  rintro p q s ⟨h, hr⟩ ⟨h', hr'⟩
  exact ⟨h.trans (congrArg _ h'), hr.trans hr'⟩

theorem Field.follows_blanked (f : Field) :
    Follows Eq (fun f g => f.view = g.view) (f.declare model) (f.blanked.declare model) := by
  refine (Follows.same (S := Eq) (fun _ => rfl) _).bind ?_
  rintro new _ rfl
  refine (Follows.mapM fun a _ => Attribute.follows_blanked f.type a).bind
    fun as bs h => Follows.pure ?_
  simp only [Field.view, Field.blanked, h, cleared_cleared]

theorem ModelMember.follows_blanked : ∀ member : ModelMember,
    Follows Eq (fun a b => a.view = b.view) (member.declare model) (member.blanked.declare model)
  | .field f => f.follows_blanked.map fun _ _ h => congrArg ModelMember.field h
  | .blockAttribute a => by
    simp only [ModelMember.blanked, ModelMember.declare, Attribute.declareOnModel_blankEnv,
      cleared_cleared]
    refine a.attr.follows_blankIndex.bind fun b c h => Follows.pure ?_
    simp only [ModelMember.view, h]
  | .comment c => Follows.pure rfl

theorem EnumMember.declare_blanked (enum : String) : ∀ member : EnumMember,
    member.blanked.declare enum = member.declare enum
  | .value v => by
    simp only [EnumMember.blanked, EnumMember.declare, EnumValue.declare, List.mapM_map,
      Function.comp_def, Attribute.numberEnv_blankEnv, cleared_cleared]
  | .blockAttribute a => by
    simp only [EnumMember.blanked, EnumMember.declare, Attribute.numberEnv_blankEnv, cleared_cleared]
  | .comment c => rfl

theorem ConfigMember.declare_blanked : ∀ member : ConfigMember,
    member.blanked.declare = member.declare
  | .property p => by
    simp only [ConfigMember.blanked, ConfigMember.declare, Value.numberEnv_blankEnv, cleared_cleared]
  | .comment c => rfl

/-- A blanked declaration registers the same names and leaves the same to the second step. -/
theorem Declaration.follows_blanked : ∀ d : Declaration,
    Follows Eq (fun d e => d.view = e.view) d.declare d.blanked.declare
  | .model m => by
    refine Follows.map (S := fun m m' => Declaration.view (.model m) = Declaration.view (.model m'))
      ?_ fun _ _ h => h
    refine (Follows.same (S := Eq) (fun _ => rfl) _).bind ?_
    rintro new _ rfl
    refine (Follows.mapM fun member _ => member.follows_blanked).bind fun as bs h => Follows.pure ?_
    simp only [Declaration.view, h]
  | .enum e => by
    have h : (Declaration.enum e).blanked.declare = (Declaration.enum e).declare := by
      simp only [Declaration.blanked, Declaration.declare, Enum.declare, List.mapM_map,
        Function.comp_def, EnumMember.declare_blanked]
    rw [h]
    refine Follows.same (fun _ => ?_) _
    rfl
  | .config b => by
    have h : (Declaration.config b).blanked.declare = (Declaration.config b).declare := by
      simp only [Declaration.blanked, Declaration.declare, ConfigBlock.declare, List.mapM_map,
        Function.comp_def, ConfigMember.declare_blanked]
    rw [h]
    refine Follows.same (fun _ => ?_) _
    rfl
  | .comments b => Follows.pure rfl

/-! ### Resolving a blanked schema -/

namespace FieldSite

theorem itemDefault_blankItem (h : site.type.scalar? = type.scalar?) (v : Value) :
    site.itemDefault r (v.blankItem type fun _ => []) = site.itemDefault r v := by
  cases v with
  | call name args =>
    by_cases hc : (name == "dbgenerated" && type.scalar? == some .dateTime) = true
    · simp only [Value.blankItem, hc, ↓reduceIte, itemDefault, callDefault, h]
    · simp only [Value.blankItem, hc, Bool.false_eq_true, ↓reduceIte]
  | _ => rfl

theorem default_blankDefault (h : site.type.scalar? = type.scalar?) (v : Value) :
    site.default r (v.blankDefault type fun _ => []) = site.default r v := by
  cases hv : v.array? with
  | some items =>
    rw [Value.eq_array_of_array? hv]
    simp only [Value.blankDefault, default, List.mapM_map, Function.comp_def,
      itemDefault_blankItem h]
  | none =>
    rw [Value.blankDefault_of_array?_none hv, default_of_array?_none _ hv,
      default_of_array?_none _ (Value.array?_blankItem hv _), itemDefault_blankItem h]

end FieldSite

namespace Attribute

theorem renameForeignKey_blankForeignKey (a : Attribute) :
    (a.mapArgs blankForeignKey).renameForeignKey site = a.renameForeignKey site := by
  have hmap : (a.mapArgs blankForeignKey).arg? "map" =
      (a.arg? "map").map (.mapString fun _ => "") := a.arg?_mapFirst "map" _
  unfold renameForeignKey
  rw [hmap]
  cases hv : a.arg? "map" with
  | none =>
    have hnone : a.args.find? (·.isNamed "map") = none := by simpa [arg?] using hv
    have hid : a.mapArgs blankForeignKey = a := by
      simp [mapArgs, blankForeignKey, Argument.mapFirst_of_find?_none hnone]
    simp [hid]
  | some v =>
    cases v with
    | string text =>
      have hagain := Argument.mapFirst_mapFirst (p := (·.isNamed "map"))
        (f := .mapString fun _ => "") (g := fun _ => .string s!"{site.field}_mapped") fun _ => id
      simp only [Option.map_some, Value.mapString, Value.string?, updateArg_eq, mapArgs,
        blankForeignKey, hagain]
    | _ => rfl

theorem resolveOnField_blankOnField (h : site.type.scalar? = type.scalar?) (a : Attribute) :
    (a.blankOnField type fun _ => []).resolveOnField r site = a.resolveOnField r site := by
  by_cases hd : a.is "default" = true
  · rw [blankOnField_of_default hd]
    simp only [resolveOnField, mapArgs_is, hd, ↓reduceIte, resolveDefault, mapArgs_args]
    cases a.args with
    | nil => rfl
    | cons first rest =>
      simp only [Argument.mapHead, Argument.mapValue_value, FieldSite.default_blankDefault h]
      rfl
  by_cases hr : a.is "relation" = true
  · rw [blankOnField_of_relation hr]
    simp only [resolveOnField, mapArgs_is, hd, hr, ↓reduceIte, resolveRelation, mapArgs_args,
      renameForeignKey_blankForeignKey, isEmpty_blankForeignKey]
    rfl
  · simp only [blankOnField, hd, hr]
    rfl

theorem renameIndex_blankSecond (number : Nat) (a : Attribute) :
    (a.mapArgs blankSecond).renameIndex model number = a.renameIndex model number := by
  unfold renameIndex
  rw [mapArgs_args]
  match a.args with
  | [] => rfl
  | [_] => rfl
  | first :: second :: rest =>
    simp only [blankSecond]
    by_cases h : second.isNamed "map" = true
    · simp only [h, ↓reduceIte, Argument.mapValue_isNamed, Argument.mapValue_value]
      cases second.value <;> rfl
    · simp only [h, Bool.false_eq_true, ↓reduceIte]
      rfl

theorem resolveFirst_blankSecond (sign : String) (a : Attribute) :
    (a.mapArgs blankSecond).resolveFirst r sign model =
      a.resolveFirst r sign model >>= fun b => .ok (b.mapArgs blankSecond) := by
  unfold resolveFirst
  rw [mapArgs_args]
  match a.args with
  | [] => rfl
  | [first] =>
    simp only [blankSecond]
    cases first.value.resolveFields r sign model <;> rfl
  | first :: second :: rest =>
    simp only [blankSecond]
    cases first.value.resolveFields r sign model <;> rfl

theorem resolveOnModel_blankIndex (number : Nat) (a : Attribute) :
    a.blankIndex.resolveOnModel r model number = a.resolveOnModel r model number := by
  by_cases hi : a.is "index" = true
  · have hb : a.blankIndex = a.mapArgs blankSecond := by simp [blankIndex, hi]
    rw [hb]
    simp only [resolveOnModel, mapArgs_is, hi, ↓reduceIte, resolveIndex, resolveFirst_blankSecond]
    cases a.resolveFirst r "@@index" model with
    | error e => rfl
    | ok b => exact renameIndex_blankSecond number b
  · simp [blankIndex, hi]

@[simp] theorem blankIndex_is (a : Attribute) (x : String) : a.blankIndex.is x = a.is x := by
  unfold blankIndex
  split <;> rfl

end Attribute

theorem FieldType.scalar?_resolve {t : FieldType} (h : type.resolve r = .ok t) :
    t.scalar? = type.scalar? := by
  cases type with
  | named ident =>
    simp only [resolve] at h
    split at h
    · cases h
      rfl
    · cases hr : r.resolveType ident.name with
      | error e =>
        rw [hr] at h
        cases h
      | ok new =>
        rw [hr] at h
        cases h
        rfl
  | _ =>
    cases h
    rfl

theorem Field.resolve_view (f : Field) : f.view.resolve r model = f.resolve r model := by
  unfold Field.resolve
  show (f.type.resolve r >>= _) = _
  cases ht : f.type.resolve r with
  | error e => rfl
  | ok type =>
    have hattr : ∀ a : Attribute, (a.blankOnField f.type fun _ => []).resolveOnField r
        ⟨model, f.name.name, type⟩ = a.resolveOnField r ⟨model, f.name.name, type⟩ :=
      Attribute.resolveOnField_blankOnField (FieldType.scalar?_resolve ht)
    have hlist : f.view.attributes.mapM (·.resolveOnField r ⟨model, f.name.name, type⟩) =
        f.attributes.mapM (·.resolveOnField r ⟨model, f.name.name, type⟩) := by
      simp only [Field.view, List.mapM_map, Function.comp_def, hattr]
    exact congrArg (· >>= fun attributes => .ok { f with type, attributes }) hlist

theorem ModelMember.resolveEach_view : ∀ (members : List ModelMember) (number : Nat),
    resolveEach r model number (members.map (·.view)) = resolveEach r model number members
  | [], _ => rfl
  | .field f :: rest, number => by
    simp only [List.map_cons, view_field, resolveEach, f.resolve_view, resolveEach_view rest number]
  | .blockAttribute a :: rest, number => by
    simp only [List.map_cons, view_blockAttribute, resolveEach,
      Attribute.resolveOnModel_blankIndex, Attribute.blankIndex_is, resolveEach_view rest]
  | .comment c :: rest, number => by
    simp only [List.map_cons, view_comment, resolveEach, resolveEach_view rest number]

theorem Declaration.resolve_view (d : Declaration) : d.view.resolve r = d.resolve r := by
  cases d with
  | model m =>
    simp only [Declaration.view, Declaration.resolve, Model.resolve, ModelMember.resolveEach_view]
  | _ => rfl

/-! ### Two runs -/

namespace Schema

variable {ρ : Renaming} {n : Numbering}

/-- The texts that are blanked leave no trace in the result, nor in the faults. -/
theorem alike_obfuscate_blanked (s : Schema) :
    Alike Eq (s.obfuscate n) (s.blanked.obfuscate n) := by
  have hdeclare : Alike (fun p q => p.1.declarations.map (·.view) = q.1.declarations.map (·.view) ∧
      p.2 = q.2) (s.declare (.new n)) (s.blanked.declare (.new n)) := by
    refine ((Follows.mapM fun d _ => d.follows_blanked) _ _ rfl).bind ?_
    exact fun _ _ h => h
  refine hdeclare.bind ?_
  rintro ⟨s, r⟩ ⟨s', _⟩ ⟨hview, rfl⟩
  have hresolve : ∀ t : Schema,
      t.declarations.mapM (·.resolve r) = (t.declarations.map (·.view)).mapM (·.resolve r) := by
    intro t
    simp only [List.mapM_map, Function.comp_def, Declaration.resolve_view]
  refine Alike.of_eq ?_
  simp only [Schema.resolve, hresolve s, hresolve s', hview]

/-- A renaming does not change the obfuscated schema, and the registry only on the side of the
old names. -/
theorem alike_obfuscate_rename_of_faithful (hρ : ρ.Faithful) (s : Schema) :
    Alike (fun p q => p.1 = q.1 ∧
        ∃ o : Outline, p.2 = o.registry n ∧ q.2 = (o.rename ρ).registry n)
      (s.obfuscate n) ((s.rename ρ).obfuscate n) := by
  have hdeclare : Alike (fun p q => ∃ o, Between ρ n o p.2 q.2 ∧
      List.Forall₂ (Declaration.Renamed ρ o.modelNames) p.1.declarations q.1.declarations)
      (s.declare (.new n)) ((s.rename ρ).declare (.new n)) := by
    have hall := Declaration.alike_declareAll (n := n) hρ s.declarations .empty
    have hempty : Outline.rename ρ .empty = .empty := rfl
    rw [hempty, Outline.registry_empty] at hall
    refine hall.bind ?_
    rintro ⟨ds, r⟩ ⟨ds', r'⟩ ⟨o, hr, -, hds⟩
    exact ⟨o, hr, hds⟩
  refine hdeclare.bind ?_
  rintro ⟨⟨ds⟩, _⟩ ⟨⟨ds'⟩, _⟩ ⟨o, ⟨rfl, rfl⟩, hds⟩
  have hresolve : Alike Eq (Schema.resolve (o.registry n) ⟨ds⟩)
      (Schema.resolve ((o.rename ρ).registry n) ⟨ds'⟩) := by
    refine (Declaration.alike_resolveAll hρ hds).bind ?_
    rintro ds _ rfl
    exact rfl
  refine hresolve.bind ?_
  rintro s _ rfl
  exact ⟨rfl, o, rfl, rfl⟩

theorem alike_obfuscate_rename (hρ : ρ.Injective) (s : Schema) :
    Alike (fun p q => p.1 = q.1 ∧
        ∃ o : Outline, p.2 = o.registry n ∧ q.2 = (o.rename ρ).registry n)
      (s.obfuscate n) ((s.rename ρ).obfuscate n) :=
  alike_obfuscate_rename_of_faithful hρ.faithful s

/-- Two schemas that differ by a renaming and by texts that are not read end alike: with the
same schema, and with registries of the same new names, or with the same fault up to the name it
quotes. -/
theorem alike_obfuscate_of_blanked_eq (hρ : ρ.Injective) {s t : Schema}
    (h : t.blanked = (s.rename ρ).blanked) (n : Numbering) :
    Alike (fun p q => p.1 = q.1 ∧
        ∃ o : Outline, p.2 = o.registry n ∧ q.2 = (o.rename ρ).registry n)
      (s.obfuscate n) (t.obfuscate n) := by
  have hs := alike_obfuscate_blanked (n := n) (s.rename ρ)
  have ht := (alike_obfuscate_blanked (n := n) t).symm
  rw [← h] at hs
  have hst : Alike Eq ((s.rename ρ).obfuscate n) (t.obfuscate n) :=
    hs.trans ht fun _ _ _ h h' => h.trans h'.symm
  exact (alike_obfuscate_rename hρ s).trans hst fun _ _ _ h h' => h' ▸ h

/-- A letter in front of every name, another one for each sort of names. -/
def lettered : Renaming where
  type name := if name = "Unsupported" then name else "T" ++ name
  field _ name := "f" ++ name
  value _ name := "v" ++ name
  relation _ name := "r" ++ name

theorem lettered_ne_unsupported (name : String) : "T" ++ name ≠ "Unsupported" := by
  intro h
  have hhead := congrArg (·.toList.head?) h
  simp at hhead

theorem lettered_injective : lettered.Injective where
  type a b h := by
    simp only [lettered] at h
    by_cases ha : a = "Unsupported" <;> by_cases hb : b = "Unsupported"
    · rw [ha, hb]
    · rw [if_pos ha, if_neg hb] at h
      exact absurd (h.symm.trans ha) (lettered_ne_unsupported b)
    · rw [if_neg ha, if_pos hb] at h
      exact absurd (h.trans hb) (lettered_ne_unsupported a)
    · rw [if_neg ha, if_neg hb] at h
      exact (String.append_right_inj _).mp h
  builtin name := by
    by_cases h : name = "Unsupported"
    · simp [lettered, h]
    · simp [lettered, h, lettered_ne_unsupported]
  field _ _ _ h := (String.append_right_inj _).mp h
  value _ _ _ h := (String.append_right_inj _).mp h
  relation _ _ _ h := (String.append_right_inj _).mp h

/-- A model that points ahead to an enum and at itself, under these names and with this
comment. -/
def staff (model role boss enum value relation comment : String) : Schema :=
  let here : Span := ⟨0, 0, 1⟩
  let only (name : String) : Value := .array [.path [name]]
  ⟨[.comments ⟨[⟨.line, comment, here⟩], here⟩,
    .model ⟨⟨model, here⟩, [
      .field ⟨⟨role, here⟩, .named ⟨enum, here⟩, .required,
        [⟨⟨"default", here⟩, [⟨none, .path [value], here⟩], here⟩], none, here⟩,
      .field ⟨⟨boss, here⟩, .named ⟨model, here⟩, .optional,
        [⟨⟨"relation", here⟩, [⟨none, .string relation, here⟩,
          ⟨some ⟨"fields", here⟩, only role, here⟩,
          ⟨some ⟨"references", here⟩, only role, here⟩], here⟩], none, here⟩,
      .blockAttribute ⟨⟨⟨"id", here⟩, [⟨none, only role, here⟩], here⟩, none⟩], here⟩,
    .enum ⟨⟨enum, here⟩, [.value ⟨⟨value, here⟩, [], none, here⟩], here⟩]⟩

-- the runs are compared, not carried out
attribute [local irreducible] Alike in
theorem alike_obfuscate_staff :
    (staff "TUser" "frole" "fboss" "TRole" "vADMIN" "rReports" "salaries").blanked =
      ((staff "User" "role" "boss" "Role" "ADMIN" "Reports" "").rename lettered).blanked ∧
    Alike (fun p q => p.1 = q.1 ∧
        ∃ o : Outline, p.2 = o.registry .global ∧ q.2 = (o.rename lettered).registry .global)
      ((staff "User" "role" "boss" "Role" "ADMIN" "Reports" "").obfuscate .global)
      ((staff "TUser" "frole" "fboss" "TRole" "vADMIN" "rReports" "salaries").obfuscate .global) := by
  have h : (staff "TUser" "frole" "fboss" "TRole" "vADMIN" "rReports" "salaries").blanked =
      ((staff "User" "role" "boss" "Role" "ADMIN" "Reports" "").rename lettered).blanked := rfl
  exact ⟨h, alike_obfuscate_of_blanked_eq lettered_injective h .global⟩

end Schema

end Pseudonym

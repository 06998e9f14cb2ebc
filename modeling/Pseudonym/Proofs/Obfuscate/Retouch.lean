/-
# Changes that touch no names and no texts

Forgetting spans and blanking the names of environment variables change a
schema in places that neither a renaming nor a replacement of texts looks at:
spans, and what stands between the parentheses of a call. Such a change
can be made before or after them, and it does not matter for what a schema
declares and for whether its references can be followed.
-/
import Pseudonym.Proofs.Obfuscate.Agreement
import Pseudonym.Proofs.Schema.Tidied

namespace Pseudonym

/-- A change of identifiers, values, comments and spans that keeps names, literals and paths, goes
into arrays, and leaves calls calls of the same name. -/
structure Retouch where
  ident : Ident → Ident
  value : Value → Value
  comment : Comment → Comment
  span : Span → Span
  ident_name : ∀ i, (ident i).name = i.name
  ident_rename : ∀ i name, ident (i.rename name) = (ident i).rename name
  value_literal : ∀ v : Value, v.isLiteral = true → value v = v
  value_path : ∀ segments, value (.path segments) = .path segments
  value_array : ∀ items, value (.array items) = .array (items.map value)
  value_call : ∀ name args, ∃ args', value (.call name args) = .call name args'
  value_bare : ∀ name, value (.call name []) = .call name []
  comment_cleared : ∀ c, comment c.cleared = (comment c).cleared

namespace Argument

variable {p : Argument → Bool} {f : Value → Value} {h : Argument → Argument}

/-- A change of the first argument with a property, beside a change of all arguments. -/
theorem mapFirst_map (hp : ∀ a, p (h a) = p a) (hf : ∀ a, (h a).mapValue f = h (a.mapValue f)) :
    ∀ args : List Argument, mapFirst p f (args.map h) = (mapFirst p f args).map h
  | [] => rfl
  | a :: rest => by
    by_cases ha : p a = true
    · simp only [List.map_cons, mapFirst, hp, ha, ↓reduceIte, hf]
    · simp only [List.map_cons, mapFirst, hp, ha, Bool.false_eq_true, ↓reduceIte,
        mapFirst_map hp hf rest]

theorem mapHead_map (hf : ∀ a, (h a).mapValue f = h (a.mapValue f)) (args : List Argument) :
    mapHead f (args.map h) = (mapHead f args).map h := by
  cases args with
  | nil => rfl
  | cons a rest => simp only [List.map_cons, mapHead, hf]

theorem find?_map_of (hp : ∀ a, p (h a) = p a) (args : List Argument) :
    (args.map h).find? p = (args.find? p).map h := by
  rw [List.find?_map]
  exact congrArg (fun q => (args.find? q).map h) (funext hp)

end Argument

namespace Retouch

variable (R : Retouch) {scope : List String} {type : FieldType} {values : Option (List String)}

/-! ### Values -/

/-- What a value can become. -/
inductive Touched : Value → Value → Prop
  | literal {v : Value} (h : v.isLiteral = true) : Touched v v
  | path (segments : List String) : Touched (.path segments) (.path segments)
  | call (name : String) (args args' : List Argument) : Touched (.call name args) (.call name args')
  | array (items : List Value) : Touched (.array items) (.array (items.map R.value))

theorem touched (v : Value) : R.Touched v (R.value v) := by
  cases v with
  | path segments =>
    rw [R.value_path]
    exact .path segments
  | call name args =>
    obtain ⟨args', h⟩ := R.value_call name args
    rw [h]
    exact .call name args args'
  | array items =>
    rw [R.value_array]
    exact .array items
  | _ =>
    rw [R.value_literal _ rfl]
    exact .literal rfl

@[simp] theorem string?_value (v : Value) : (R.value v).string? = v.string? := by
  have h := R.touched v
  generalize R.value v = u at h ⊢
  cases h <;> rfl

theorem array?_value {v : Value} (hv : v.array? = none) : (R.value v).array? = none := by
  have h := R.touched v
  generalize R.value v = u at h ⊢
  cases h with
  | array items => cases hv
  | literal h => exact hv
  | _ => rfl

theorem names_value (v : Value) : (R.value v).Names scope ↔ v.Names scope := by
  have h := R.touched v
  generalize R.value v = u at h ⊢
  cases h <;> exact Iff.rfl

theorem lists_value (v : Value) : (R.value v).Lists scope ↔ v.Lists scope := by
  have h := R.touched v
  generalize R.value v = u at h ⊢
  cases h with
  | array items => simp only [Value.Lists, List.forall_mem_map, names_value]
  | _ => exact Iff.rfl

theorem suitsItem_value (v : Value) : (R.value v).SuitsItem type values ↔ v.SuitsItem type values := by
  have h := R.touched v
  generalize R.value v = u at h ⊢
  cases h <;> exact Iff.rfl

theorem suitsDefault_value (v : Value) :
    (R.value v).SuitsDefault type values ↔ v.SuitsDefault type values := by
  have h := R.touched v
  generalize R.value v = u at h ⊢
  cases h with
  | array items => simp only [Value.SuitsDefault, List.forall_mem_map, suitsItem_value]
  | _ => exact Iff.rfl

/-- A change of values that leaves calls alone, before and after. -/
theorem value_comm {f : Value → Value} (hcall : ∀ name args, f (.call name args) = .call name args)
    (harray : ∀ items, f (.array (items.map R.value)) = R.value (f (.array items)))
    (hpath : ∀ segments, R.value (f (.path segments)) = f (.path segments))
    (hliteral : ∀ v : Value, v.isLiteral = true → R.value (f v) = f v) (v : Value) :
    f (R.value v) = R.value (f v) := by
  cases v with
  | call name args =>
    obtain ⟨args', h⟩ := R.value_call name args
    rw [h, hcall, hcall, h]
  | array items => rw [R.value_array, harray]
  | path segments => rw [R.value_path, hpath]
  | _ => rw [R.value_literal _ rfl, hliteral _ rfl]

theorem value_mapString (f : String → String) (v : Value) :
    (R.value v).mapString f = R.value (v.mapString f) := by
  refine R.value_comm (fun _ _ => rfl) (fun items => (R.value_array items).symm) R.value_path
    (fun u hu => ?_) v
  cases u with
  | string text => exact R.value_literal _ rfl
  | _ => exact R.value_literal _ hu

theorem value_renameItem (f : String → String) (v : Value) :
    (R.value v).renameItem f = R.value (v.renameItem f) := by
  refine R.value_comm (fun _ _ => rfl) (fun items => (R.value_array items).symm)
    (fun segments => ?_) (fun u hu => ?_) v
  · rcases segments with _ | ⟨name, _ | ⟨x, rest⟩⟩ <;> exact R.value_path _
  · cases u with
    | path segments => cases hu
    | _ => exact R.value_literal _ hu

theorem map_value_renameItem (f : String → String) (items : List Value) :
    (items.map R.value).map (.renameItem f) = (items.map (.renameItem f)).map R.value := by
  rw [List.map_map, List.map_map]
  exact List.map_congr_left fun item _ => R.value_renameItem f item

theorem value_renameItems (f : String → String) (v : Value) :
    (R.value v).renameItems f = R.value (v.renameItems f) := by
  refine R.value_comm (fun _ _ => rfl) (fun items => ?_) R.value_path (fun u hu => ?_) v
  · rw [Value.renameItems, Value.renameItems, R.value_array, R.map_value_renameItem]
  · cases u with
    | array items => cases hu
    | _ => exact R.value_literal _ hu

theorem value_renameDefault (f : String → String) (v : Value) :
    (R.value v).renameDefault f = R.value (v.renameDefault f) := by
  cases hv : v.array? with
  | some items =>
    rw [Value.eq_array_of_array? hv, R.value_array, Value.renameDefault, Value.renameDefault,
      R.value_array, R.map_value_renameItem]
  | none =>
    rw [Value.renameDefault_of_array?_none (R.array?_value hv), Value.renameDefault_of_array?_none hv,
      R.value_renameItem]

theorem value_retextItem (w : FieldTexts) (v : Value) :
    (R.value v).retextItem w = R.value (v.retextItem w) := by
  by_cases hv : v.isLiteral = true
  · rw [R.value_literal v hv, R.value_literal _ ((Value.isLiteral_retextItem w v).trans hv)]
  · cases v with
    | call name args =>
      obtain ⟨args', h⟩ := R.value_call name args
      rw [h, Value.retextItem_call, Value.retextItem_call]
      split
      · rw [R.value_bare]
      · rw [h]
    | array items =>
      rw [R.value_array]
      exact (R.value_array items).symm
    | path segments =>
      rw [R.value_path]
      exact (R.value_path segments).symm
    | _ => exact absurd rfl hv

theorem value_retextDefault (w : FieldTexts) (v : Value) :
    (R.value v).retextDefault w = R.value (v.retextDefault w) := by
  cases hv : v.array? with
  | some items =>
    rw [Value.eq_array_of_array? hv, R.value_array, Value.retextDefault, Value.retextDefault,
      R.value_array, List.map_map, List.map_map]
    exact congrArg Value.array (List.map_congr_left fun item _ => R.value_retextItem w item)
  | none =>
    rw [Value.retextDefault_of_array?_none (R.array?_value hv), Value.retextDefault_of_array?_none hv,
      R.value_retextItem]

/-! ### Arguments and attributes -/

/-- Retouches an argument. -/
def onArgument (a : Argument) : Argument := ⟨a.name.map R.ident, R.value a.value, R.span a.span⟩

/-- Retouches an attribute. -/
def onAttribute (a : Attribute) : Attribute :=
  ⟨R.ident a.name, a.args.map R.onArgument, R.span a.span⟩

@[simp] theorem isNamed_onArgument (a : Argument) (x : String) :
    (R.onArgument a).isNamed x = a.isNamed x := by
  cases hname : a.name with
  | none => simp only [onArgument, Argument.isNamed, hname, Option.map_none]
  | some ident => simp only [onArgument, Argument.isNamed, hname, Option.map_some, R.ident_name]

@[simp] theorem isPositional_onArgument (a : Argument) :
    (R.onArgument a).isPositional = a.isPositional := by
  simp [onArgument, Argument.isPositional]

@[simp] theorem value_onArgument (a : Argument) : (R.onArgument a).value = R.value a.value := rfl

@[simp] theorem namesRelation_onArgument (a : Argument) :
    Attribute.namesRelation (R.onArgument a) = Attribute.namesRelation a := by
  simp [Attribute.namesRelation]

@[simp] theorem namesKey_onArgument (a : Argument) : (R.onArgument a).namesKey = a.namesKey := by
  simp [Argument.namesKey]

@[simp] theorem is_onAttribute (a : Attribute) (x : String) : (R.onAttribute a).is x = a.is x := by
  rw [Attribute.is, onAttribute, R.ident_name]
  rfl

theorem args_onAttribute (a : Attribute) : (R.onAttribute a).args = a.args.map R.onArgument := rfl

/-- A change of arguments that is made before or after. -/
theorem mapArgs_onAttribute {f : List Argument → List Argument} {a : Attribute}
    (h : f (a.args.map R.onArgument) = (f a.args).map R.onArgument) :
    (R.onAttribute a).mapArgs f = R.onAttribute (a.mapArgs f) := by
  simp only [Attribute.mapArgs, onAttribute, h]

/-- A change of values that is made before or after, in an argument. -/
theorem mapValue_onArgument {f : Value → Value} (h : ∀ v, f (R.value v) = R.value (f v))
    (a : Argument) : (R.onArgument a).mapValue f = R.onArgument (a.mapValue f) := by
  simp only [Argument.mapValue, onArgument, h]

theorem find?_onArgument {p : Argument → Bool} (hp : ∀ a, p (R.onArgument a) = p a)
    (args : List Argument) : (args.map R.onArgument).find? p = (args.find? p).map R.onArgument :=
  Argument.find?_map_of hp args

theorem any_isNamed_onArgument (x : String) (args : List Argument) :
    (args.map R.onArgument).any (·.isNamed x) = args.any (·.isNamed x) := by
  simp [List.any_map, Function.comp_def]

@[simp] theorem declaresRelation_onAttribute (a : Attribute) :
    (R.onAttribute a).declaresRelation = a.declaresRelation := by
  simp only [Attribute.declaresRelation, Attribute.hasArg, args_onAttribute, any_isNamed_onArgument]

@[simp] theorem relationName?_onAttribute (a : Attribute) :
    (R.onAttribute a).relationName? = a.relationName? := by
  rw [Attribute.relationName?, args_onAttribute, R.find?_onArgument R.namesRelation_onArgument,
    Option.bind_map]
  simp only [Function.comp_def, value_onArgument, string?_value]
  rfl

theorem arg?_onAttribute (a : Attribute) (x : String) :
    (R.onAttribute a).arg? x = (a.arg? x).map R.value := by
  rw [Attribute.arg?, args_onAttribute, R.find?_onArgument fun b => R.isNamed_onArgument b x,
    Option.map_map, Attribute.arg?, Option.map_map]
  rfl

/-! ### Renaming -/

section Renaming

variable (ρ : Renaming) (model : String) (a : Attribute)

theorem mapFirst_onArgument {p : Argument → Bool} {f : Value → Value}
    (hp : ∀ a, p (R.onArgument a) = p a) (hf : ∀ v, f (R.value v) = R.value (f v))
    (args : List Argument) : Argument.mapFirst p f (args.map R.onArgument) =
      (Argument.mapFirst p f args).map R.onArgument :=
  Argument.mapFirst_map hp (R.mapValue_onArgument hf) args

theorem renameDeclared_onAttribute :
    (R.onAttribute a).renameDeclared ρ model = R.onAttribute (a.renameDeclared ρ model) := by
  simp only [Attribute.renameDeclared, is_onAttribute, declaresRelation_onAttribute]
  split
  · exact R.mapArgs_onAttribute
      (R.mapFirst_onArgument R.namesRelation_onArgument (R.value_mapString _) _)
  · rfl

theorem renameReferences_onAttribute (type : FieldType) :
    (R.onAttribute a).renameReferences ρ model type =
      R.onAttribute (a.renameReferences ρ model type) := by
  have hlist := fun (x : String) (f : String → String) (args : List Argument) =>
    R.mapFirst_onArgument (p := (·.isNamed x)) (fun b => R.isNamed_onArgument b x)
      (R.value_renameItems f) args
  simp only [Attribute.renameReferences, is_onAttribute, declaresRelation_onAttribute]
  split
  · exact R.mapArgs_onAttribute
      (Argument.mapHead_map (R.mapValue_onArgument (R.value_renameDefault _)) _)
  split
  · refine R.mapArgs_onAttribute ?_
    unfold Attribute.renameRelationArgs
    split
    · rw [Attribute.renameListArgs, hlist, hlist]
      rfl
    · exact R.mapFirst_onArgument R.namesRelation_onArgument (R.value_mapString _) _
  · rfl

theorem renameKeys_onAttribute :
    (R.onAttribute a).renameKeys ρ model = R.onAttribute (a.renameKeys ρ model) := by
  simp only [Attribute.renameKeys, is_onAttribute]
  split
  · refine R.mapArgs_onAttribute ?_
    rw [List.map_map, List.map_map]
    refine List.map_congr_left fun arg _ => ?_
    simp only [Function.comp_apply, namesKey_onArgument]
    rw [apply_ite R.onArgument, R.mapValue_onArgument (R.value_mapString _)]
  · rfl

theorem renameLists_onAttribute :
    (R.onAttribute a).renameLists ρ model = R.onAttribute (a.renameLists ρ model) := by
  simp only [Attribute.renameLists, is_onAttribute]
  split
  · exact R.mapArgs_onAttribute
      (Argument.mapHead_map (R.mapValue_onArgument (R.value_renameItems _)) _)
  split
  · refine R.mapArgs_onAttribute ?_
    rw [List.map_map, List.map_map]
    exact List.map_congr_left fun arg _ => R.mapValue_onArgument (R.value_renameItems _) arg
  · rfl

/-! ### Texts -/

theorem retextOnField_onAttribute (w : FieldTexts) :
    (R.onAttribute a).retextOnField w = R.onAttribute (a.retextOnField w) := by
  simp only [Attribute.retextOnField, is_onAttribute]
  split
  · exact R.mapArgs_onAttribute
      (Argument.mapHead_map (R.mapValue_onArgument (R.value_retextDefault w)) _)
  split
  · exact R.mapArgs_onAttribute
      (R.mapFirst_onArgument (fun b => R.isNamed_onArgument b "map") (R.value_mapString _) _)
  split
  · refine R.mapArgs_onAttribute ?_
    rw [List.map_map, List.map_map]
    refine List.map_congr_left fun arg _ => ?_
    simp only [Function.comp_apply, isNamed_onArgument]
    rw [apply_ite R.onArgument, R.mapValue_onArgument (R.value_mapString _)]
  · rfl

theorem retextIndex_onAttribute (text : String) :
    (R.onAttribute a).retextIndex text = R.onAttribute (a.retextIndex text) := by
  simp only [Attribute.retextIndex, is_onAttribute]
  split
  · refine R.mapArgs_onAttribute ?_
    rcases a.args with _ | ⟨first, _ | ⟨second, rest⟩⟩
    · rfl
    · rfl
    · simp only [List.map_cons, Attribute.retextSecond, isNamed_onArgument]
      rw [apply_ite R.onArgument, R.mapValue_onArgument (R.value_mapString _)]
  · rfl

end Renaming

/-! ### What is declared and what is referred to -/

section Agreement

variable (a : Attribute)

theorem keyName?_onArgument (arg : Argument) : (R.onArgument arg).keyName? = arg.keyName? := by
  simp only [Argument.keyName?, namesKey_onArgument, value_onArgument, string?_value]

theorem keyNames_onAttribute : (R.onAttribute a).keyNames = a.keyNames := by
  simp only [Attribute.keyNames, is_onAttribute, args_onAttribute, List.filterMap_map,
    Function.comp_def, keyName?_onArgument]

theorem firstLists_onAttribute {keys : List String} :
    (R.onAttribute a).FirstLists keys ↔ a.FirstLists keys := by
  rw [Attribute.FirstLists, Attribute.FirstLists, args_onAttribute]
  cases a.args with
  | nil => simp
  | cons first rest => simp [lists_value]

theorem secondNames_onAttribute : (R.onAttribute a).SecondNames ↔ a.SecondNames := by
  rw [Attribute.SecondNames, Attribute.SecondNames, args_onAttribute]
  rcases a.args with _ | ⟨first, _ | ⟨second, rest⟩⟩ <;> simp

theorem uniqueLists_onAttribute {keys : List String} :
    (R.onAttribute a).UniqueLists keys ↔ a.UniqueLists keys := by
  have harg : ∀ v : Value, (∀ items, (R.value v).array? = some items → (R.value v).Lists keys) ↔
      ∀ items, v.array? = some items → v.Lists keys := by
    intro v
    cases hv : v.array? with
    | none => simp [R.array?_value hv]
    | some items =>
      rw [Value.eq_array_of_array? hv, lists_value, R.value_array]
      simp [Value.array?]
  simp only [Attribute.UniqueLists, args_onAttribute, List.forall_mem_map, value_onArgument, harg]

theorem agreesOnModel : a.AgreesOnModel (R.onAttribute a) where
  keys := R.keyNames_onAttribute a
  unique := by
    simp only [is_onAttribute, Attribute.UniqueOnModel, args_onAttribute, List.forall_mem_map,
      isPositional_onArgument, namesKey_onArgument, value_onArgument, string?_value]
  suits keys := by
    simp only [Attribute.SuitsModel, is_onAttribute, firstLists_onAttribute, secondNames_onAttribute,
      uniqueLists_onAttribute]

theorem suitsDefault_onAttribute {sc : FieldScopes} :
    (R.onAttribute a).SuitsDefault type sc ↔ a.SuitsDefault type sc := by
  rw [Attribute.SuitsDefault, Attribute.SuitsDefault, args_onAttribute]
  cases a.args with
  | nil => simp
  | cons first rest => simp [suitsDefault_value]

theorem suitsLists_onAttribute {sc : FieldScopes} :
    (R.onAttribute a).SuitsLists sc ↔ a.SuitsLists sc := by
  have hlist : ∀ (x : String) (keys : List String),
      (∃ v, (R.onAttribute a).arg? x = some v ∧ v.Lists keys) ↔
        ∃ v, a.arg? x = some v ∧ v.Lists keys := by
    intro x keys
    simp only [arg?_onAttribute, Option.map_eq_some_iff]
    constructor
    · rintro ⟨_, ⟨v, hv, rfl⟩, hlists⟩
      exact ⟨v, hv, (R.lists_value v).mp hlists⟩
    · rintro ⟨v, hv, hlists⟩
      exact ⟨_, ⟨v, hv, rfl⟩, (R.lists_value v).mpr hlists⟩
  simp only [Attribute.SuitsLists, hlist]

theorem suitsRelation_onAttribute {sc : FieldScopes} :
    (R.onAttribute a).SuitsRelation sc ↔ a.SuitsRelation sc := by
  have hmap : (∀ v, (R.onAttribute a).arg? "map" = some v → v.string?.isSome = true) ↔
      ∀ v, a.arg? "map" = some v → v.string?.isSome = true := by
    rw [arg?_onAttribute]
    cases a.arg? "map" <;> simp
  simp only [Attribute.SuitsRelation, hmap, args_onAttribute, Attribute.SuitsTarget,
    Attribute.bareRelation?, declaresRelation_onAttribute, relationName?_onAttribute,
    suitsLists_onAttribute, ne_eq, List.map_eq_nil_iff]

theorem agreesOnField : a.AgreesOnField (R.onAttribute a) where
  relation := by
    simp only [Attribute.declaredRelation?, is_onAttribute, declaresRelation_onAttribute,
      relationName?_onAttribute]
  unique := by
    simp only [is_onAttribute, Attribute.UniqueOnField, args_onAttribute, List.forall_mem_map,
      isPositional_onArgument, isNamed_onArgument, value_onArgument, string?_value]
  suits type sc := by
    simp only [Attribute.SuitsField, is_onAttribute, suitsDefault_onAttribute,
      suitsRelation_onAttribute]

end Agreement

/-! ### Blocks -/

/-- Retouches a type. -/
def onType : FieldType → FieldType
  | .named ident => .named (R.ident ident)
  | .scalar type => .scalar type
  | .unsupported text => .unsupported text

/-- Retouches a field. -/
def onField (f : Field) : Field :=
  ⟨R.ident f.name, R.onType f.type, f.modifier, f.attributes.map R.onAttribute,
    f.comment.map R.comment, R.span f.span⟩

/-- Retouches an attribute of a block. -/
def onBlockAttribute (a : BlockAttribute) : BlockAttribute :=
  ⟨R.onAttribute a.attr, a.comment.map R.comment⟩

/-- Retouches a line of a model. -/
def onModelMember : ModelMember → ModelMember
  | .field f => .field (R.onField f)
  | .blockAttribute a => .blockAttribute (R.onBlockAttribute a)
  | .comment c => .comment (R.comment c)

/-- Retouches a line of an enum. -/
def onEnumMember : EnumMember → EnumMember
  | .value v => .value ⟨R.ident v.name, v.attributes.map R.onAttribute, v.comment.map R.comment,
      R.span v.span⟩
  | .blockAttribute a => .blockAttribute (R.onBlockAttribute a)
  | .comment c => .comment (R.comment c)

/-- Retouches a line of a block of configuration. -/
def onConfigMember : ConfigMember → ConfigMember
  | .property p => .property ⟨R.ident p.name, R.value p.value, p.comment.map R.comment, R.span p.span⟩
  | .comment c => .comment (R.comment c)

/-- Retouches a declaration. -/
def onDeclaration : Declaration → Declaration
  | .config b => .config ⟨b.kind, R.ident b.name, b.members.map R.onConfigMember, R.span b.span⟩
  | .model m => .model ⟨R.ident m.name, m.members.map R.onModelMember, R.span m.span⟩
  | .enum e => .enum ⟨R.ident e.name, e.members.map R.onEnumMember, R.span e.span⟩
  | .comments b => .comments ⟨b.comments.map R.comment, R.span b.span⟩

end Retouch

/-- Retouches a schema. -/
def Schema.retouch (R : Retouch) (s : Schema) : Schema := ⟨s.declarations.map R.onDeclaration⟩

namespace Retouch

variable (R : Retouch)

@[simp] theorem scalar?_onType (type : FieldType) : (R.onType type).scalar? = type.scalar? := by
  cases type <;> rfl

@[simp] theorem typeName?_onType (type : FieldType) : (R.onType type).typeName? = type.typeName? := by
  cases type with
  | named ident => simp only [onType, FieldType.typeName?, R.ident_name]
  | _ => rfl

@[simp] theorem takesLiteral_onType (type : FieldType) :
    (R.onType type).takesLiteral = type.takesLiteral := by
  cases type <;> rfl

@[simp] theorem scope_onType (f : String → String → String) (type : FieldType) :
    (R.onType type).scope f = type.scope f := by
  cases type with
  | named ident => simp only [onType, FieldType.scope, FieldType.reference?, R.ident_name]
  | _ => rfl

theorem rename_onType (f : String → String) (type : FieldType) :
    (R.onType type).rename f = R.onType (type.rename f) := by
  cases type with
  | named ident =>
    simp only [onType, FieldType.rename, R.ident_name]
    split
    · rfl
    · simp only [R.ident_rename]
  | _ => rfl

/-! ### Schemas -/

section Schemas

variable (ρ : Renaming) (T : Texts) (model : String)

/-- A type matters for its references only through the scopes it opens. -/
theorem renameReferences_onType (type : FieldType) (a : Attribute) :
    a.renameReferences ρ model (R.onType type) = a.renameReferences ρ model type := by
  have hlists : Attribute.renameListArgs ρ model (R.onType type) =
      Attribute.renameListArgs ρ model type := by
    funext args
    simp only [Attribute.renameListArgs, scope_onType]
  simp only [Attribute.renameReferences, Attribute.renameRelationArgs, scope_onType, hlists]

theorem rename_onModelMember (member : ModelMember) :
    ((R.onModelMember member).renameDeclared ρ model).renameReferences ρ model =
      R.onModelMember ((member.renameDeclared ρ model).renameReferences ρ model) := by
  cases member with
  | field f =>
    simp only [onModelMember, onField, ModelMember.renameDeclared, ModelMember.renameReferences,
      Field.renameDeclared, Field.renameReferences, R.ident_name, R.ident_rename, List.map_map,
      Function.comp_def, renameDeclared_onAttribute, renameReferences_onType,
      renameReferences_onAttribute, rename_onType]
  | blockAttribute a =>
    simp only [onModelMember, onBlockAttribute, ModelMember.renameDeclared,
      ModelMember.renameReferences, renameKeys_onAttribute, renameLists_onAttribute]
  | comment c => rfl

theorem rename_onDeclaration (d : Declaration) :
    (R.onDeclaration d).rename ρ = R.onDeclaration (d.rename ρ) := by
  cases d with
  | config b => rfl
  | model m =>
    simp only [onDeclaration, Declaration.rename, Model.rename, R.ident_name, R.ident_rename,
      List.map_map, Function.comp_def, rename_onModelMember]
  | enum e =>
    have hmember : ∀ member : EnumMember, (R.onEnumMember member).rename ρ e.name.name =
        R.onEnumMember (member.rename ρ e.name.name) := by
      intro member
      cases member with
      | value v => simp only [onEnumMember, EnumMember.rename, R.ident_name, R.ident_rename]
      | blockAttribute a => rfl
      | comment c => rfl
    simp only [onDeclaration, Declaration.rename, Enum.rename, R.ident_name, R.ident_rename,
      List.map_map, Function.comp_def, hmember]
  | comments b => rfl

theorem map_comment_cleared (c : Option Comment) :
    (c.map R.comment).map (·.cleared) = (c.map (·.cleared)).map R.comment := by
  cases c with
  | none => rfl
  | some c => simp only [Option.map_some, R.comment_cleared]

theorem retext_onModelMember (number : Nat) (member : ModelMember) :
    (R.onModelMember member).retext T model number =
      (R.onModelMember (member.retext T model number).1, (member.retext T model number).2) := by
  cases member with
  | field f =>
    simp only [onModelMember, onField, ModelMember.retext, Field.retext, Texts.around, scalar?_onType,
      R.ident_name, List.map_map, Function.comp_def, retextOnField_onAttribute]
    rw [map_comment_cleared]
  | blockAttribute a =>
    simp only [onModelMember, onBlockAttribute, ModelMember.retext, retextIndex_onAttribute,
      is_onAttribute, map_comment_cleared]
  | comment c => simp only [onModelMember, ModelMember.retext, R.comment_cleared]

theorem retext_onDeclaration (d : Declaration) :
    (R.onDeclaration d).retext T = R.onDeclaration (d.retext T) := by
  cases d with
  | config b =>
    have hmember : ∀ member : ConfigMember, (R.onConfigMember member).cleared =
        R.onConfigMember member.cleared := by
      intro member
      cases member <;>
        simp only [onConfigMember, ConfigMember.cleared, map_comment_cleared, R.comment_cleared]
    simp only [onDeclaration, Declaration.retext, List.map_map, Function.comp_def, hmember]
  | model m =>
    simp only [onDeclaration, Declaration.retext, Model.retext, R.ident_name,
      numberAlong_map (R.retext_onModelMember T m.name.name)]
  | enum e =>
    have hmember : ∀ member : EnumMember, (R.onEnumMember member).cleared =
        R.onEnumMember member.cleared := by
      intro member
      cases member <;> simp only [onEnumMember, onBlockAttribute, EnumMember.cleared,
        map_comment_cleared, R.comment_cleared]
    simp only [onDeclaration, Declaration.retext, List.map_map, Function.comp_def, hmember]
  | comments b => rfl

end Schemas

end Retouch

namespace Schema

variable (R : Retouch) (s : Schema)

theorem retouch_rename (ρ : Renaming) : (s.retouch R).rename ρ = (s.rename ρ).retouch R := by
  simp only [retouch, rename, List.map_map, Function.comp_def, Retouch.rename_onDeclaration]

theorem retouch_retext (T : Texts) : (s.retouch R).retext T = (s.retext T).retouch R := by
  simp only [retouch, retext, List.map_map, Function.comp_def, Retouch.retext_onDeclaration]

theorem agrees_retouch : s.Agrees (s.retouch R) := by
  have hmap : List.Forall₂ (fun d d' => d' = R.onDeclaration d) s.declarations
      (s.retouch R).declarations := by
    rw [retouch, List.forall₂_map_right_iff, List.forall₂_same]
    exact fun _ _ => rfl
  refine Matches.of_forall₂ hmap ?_
  rintro d _ rfl
  cases d with
  | model m =>
    have hmembers : List.Forall₂ (fun a b => b = R.onModelMember a) m.members
        (m.members.map R.onModelMember) := by
      rw [List.forall₂_map_right_iff, List.forall₂_same]
      exact fun _ _ => rfl
    refine .inl (.model ⟨R.ident_name m.name, Matches.of_forall₂ hmembers ?_⟩)
    rintro member _ rfl
    cases member with
    | field f =>
      refine .inl (.field ⟨R.ident_name f.name, R.typeName?_onType f.type,
        R.takesLiteral_onType f.type, ?_⟩)
      rw [Retouch.onField, List.forall₂_map_right_iff, List.forall₂_same]
      exact fun a _ => R.agreesOnField a
    | blockAttribute a => exact .inl (.blockAttribute (R.agreesOnModel a.attr))
    | comment c => exact .inr ⟨⟨c, rfl⟩, ⟨_, rfl⟩⟩
  | enum e =>
    refine .inl (.enum ⟨R.ident_name e.name, ?_⟩)
    rw [Enum.valueNames_eq, Enum.valueNames_eq, List.filterMap_map]
    congr 1
    funext member
    cases member with
    | value v => exact congrArg some (R.ident_name v.name)
    | blockAttribute a => rfl
    | comment c => rfl
  | config b => exact .inr ⟨rfl, rfl⟩
  | comments b => exact .inr ⟨rfl, rfl⟩

end Schema

/-! ### Names of environment variables -/

theorem Value.blankEnvEach_eq_map (l : List Value) : blankEnvEach l = l.map (·.blankEnv) := by
  induction l with
  | nil => rfl
  | cons v l ih => rw [blankEnvEach, ih, List.map_cons]

/-- Blanking the names of environment variables. -/
def Retouch.blankEnv : Retouch where
  ident := id
  value := .blankEnv
  comment := id
  span := id
  ident_name _ := rfl
  ident_rename _ _ := rfl
  value_literal v h := by
    cases v with
    | call name args => cases h
    | array items => cases h
    | path segments => cases h
    | _ => simp [Value.blankEnv]
  value_path _ := by rw [Value.blankEnv]
  value_array items := by rw [Value.blankEnv, Value.blankEnvEach_eq_map]
  value_call name args := by
    simp only [Value.blankEnv]
    split
    · exact ⟨[], rfl⟩
    · split
      · exact ⟨_, rfl⟩
      · exact ⟨_, rfl⟩
  value_bare _ := by simp [Value.blankEnv, Argument.blankEnvEach]
  comment_cleared _ := rfl

theorem Argument.blankEnvEach_eq_map (args : List Argument) :
    blankEnvEach args = args.map Retouch.blankEnv.onArgument := by
  induction args with
  | nil => rfl
  | cons arg rest ih =>
    obtain ⟨name, value, span⟩ := arg
    rw [blankEnvEach, ih, List.map_cons, Retouch.onArgument]
    cases name <;> rfl

theorem Retouch.onAttribute_blankEnv : Retouch.blankEnv.onAttribute = Attribute.blankEnv := by
  funext a
  rw [Attribute.blankEnv, Attribute.mapArgs, Argument.blankEnvEach_eq_map]
  rfl

/-! ### Spans -/

/-- Changing spans. -/
def Retouch.mapSpan (f : Span → Span) : Retouch where
  ident := .mapSpan f
  value := .mapSpan f
  comment := .mapSpan f
  span := f
  ident_name _ := rfl
  ident_rename _ _ := rfl
  value_literal v h := by
    cases v with
    | call name args => cases h
    | array items => cases h
    | path segments => cases h
    | _ => simp [Value.mapSpan]
  value_path _ := by rw [Value.mapSpan]
  value_array items := by rw [Value.mapSpan, Value.mapSpanEach_eq_map]
  value_call name args := ⟨Argument.mapSpanEach f args, by rw [Value.mapSpan]⟩
  value_bare _ := by rw [Value.mapSpan, Argument.mapSpanEach]
  comment_cleared _ := rfl

theorem Argument.mapSpanEach_eq_map (f : Span → Span) (args : List Argument) :
    mapSpanEach f args = args.map (Retouch.mapSpan f).onArgument := by
  induction args with
  | nil => rfl
  | cons arg rest ih =>
    obtain ⟨name, value, span⟩ := arg
    rw [mapSpanEach, ih, List.map_cons]
    rfl

/-- Forgetting spans. -/
def Retouch.unplaced : Retouch := .mapSpan fun _ => .nowhere

theorem Retouch.onAttribute_unplaced : Retouch.unplaced.onAttribute = Attribute.unplaced := by
  funext a
  rw [Attribute.unplaced, Argument.unplacedEach, Argument.mapSpanEach_eq_map]
  rfl

theorem Schema.retouch_unplaced (s : Schema) : s.retouch .unplaced = s.unplaced := by
  have hmodel : Retouch.unplaced.onModelMember = ModelMember.unplaced := by
    funext member
    cases member with
    | field f =>
      have htype : Retouch.unplaced.onType f.type = f.type.unplaced := by cases f.type <;> rfl
      simp only [Retouch.onModelMember, Retouch.onField, htype, Retouch.onAttribute_unplaced]
      rfl
    | blockAttribute a =>
      simp only [Retouch.onModelMember, Retouch.onBlockAttribute, Retouch.onAttribute_unplaced]
      rfl
    | comment c => rfl
  have henum : Retouch.unplaced.onEnumMember = EnumMember.unplaced := by
    funext member
    cases member with
    | value v =>
      simp only [Retouch.onEnumMember, Retouch.onAttribute_unplaced]
      rfl
    | blockAttribute a =>
      simp only [Retouch.onEnumMember, Retouch.onBlockAttribute, Retouch.onAttribute_unplaced]
      rfl
    | comment c => rfl
  have hconfig : Retouch.unplaced.onConfigMember = ConfigMember.unplaced := by
    funext member
    cases member <;> rfl
  rw [retouch, unplaced]
  congr 1
  refine List.map_congr_left fun d _ => ?_
  cases d with
  | config b => simp only [Retouch.onDeclaration, Declaration.unplaced, hconfig]; rfl
  | model m => simp only [Retouch.onDeclaration, Declaration.unplaced, hmodel]; rfl
  | enum e => simp only [Retouch.onDeclaration, Declaration.unplaced, henum]; rfl
  | comments b => rfl

end Pseudonym

/-
# Texts that are no names

Beside the names of a schema an obfuscation replaces texts that say something:
comments, literal default values, expressions of the database that stand for a
time, and the names that keys and indexes have in the database. `Texts` says by
what they are replaced. The texts of an obfuscation are `Texts.neutral`; under
`Texts.blank` nothing is left of them.

Only what stands at these places is replaced, and it is replaced wherever it
stands, so a replacement can be made before a renaming or after it, and the
last one of two is the one that shows.
-/
import Pseudonym.Proofs.Obfuscate.Numbering

namespace Pseudonym

/-- What replaces the texts around a field. -/
structure FieldTexts where
  /-- A literal for all literal defaults. Without one they stay. -/
  literal : Option Value
  /-- Whether expressions of the database give way to the current time. -/
  isTime : Bool
  foreignKey : String
  /-- The name of a unique key, from the old one. -/
  uniqueKey : String → String
  isLiteral : ∀ v ∈ literal, v.isLiteral = true

/-- What replaces the texts of a schema, given the names of models and fields. -/
structure Texts where
  literal : Option ScalarType → Option Value
  foreignKey : (field : String) → String
  uniqueKey : (model field old : String) → String
  index : (model : String) → (number : Nat) → String
  isLiteral : ∀ type, ∀ v ∈ literal type, v.isLiteral = true

namespace Texts

/-- The texts around a field. -/
def around (T : Texts) (model field : String) (type : FieldType) : FieldTexts where
  literal := T.literal type.scalar?
  isTime := type.scalar? == some .dateTime
  foreignKey := T.foreignKey field
  uniqueKey := T.uniqueKey model field
  isLiteral := T.isLiteral type.scalar?

/-- The texts of an obfuscation. -/
def neutral : Texts where
  literal type := type.bind FieldSite.placeholder?
  foreignKey field := s!"{field}_mapped"
  uniqueKey := Attribute.uniqueKeyName
  index model number := s!"{model}_index_{number}"
  isLiteral type v hv := by
    cases type with
    | none => cases hv
    | some type => cases type <;> cases hv <;> rfl

/-- No texts. The literals that stay in an obfuscation stay here too. -/
def blank : Texts where
  literal type := (type.bind FieldSite.placeholder?).map fun _ => .string ""
  foreignKey _ := ""
  uniqueKey _ _ _ := ""
  index _ _ := ""
  isLiteral _ v hv := by
    obtain ⟨_, -, rfl⟩ := Option.map_eq_some_iff.mp hv
    rfl

end Texts

/-! ### Values and attributes -/

namespace Value

/-- Replaces a default value, or an item of a default array. -/
def retextItem (w : FieldTexts) (v : Value) : Value :=
  if v.isLiteral then w.literal.getD v
  else
    match v with
    | .call name args => if name == "dbgenerated" && w.isTime then .call "now" [] else .call name args
    | v => v

theorem retextItem_of_isLiteral {w : FieldTexts} {v : Value} (h : v.isLiteral = true) :
    v.retextItem w = w.literal.getD v := by
  unfold retextItem
  rw [if_pos h]

theorem retextItem_call (w : FieldTexts) (name : String) (args : List Argument) :
    (Value.call name args).retextItem w =
      if name == "dbgenerated" && w.isTime then .call "now" [] else .call name args := rfl

/-- Replaces a default value. -/
def retextDefault (w : FieldTexts) : Value → Value
  | .array items => .array (items.map (retextItem w))
  | value => value.retextItem w

theorem retextDefault_of_array?_none {w : FieldTexts} {v : Value} (h : v.array? = none) :
    v.retextDefault w = v.retextItem w := by
  cases v with
  | array items => cases h
  | _ => rfl

end Value

namespace Attribute

/-- Replaces the texts of an attribute of a field. -/
def retextOnField (w : FieldTexts) (a : Attribute) : Attribute :=
  if a.is "default" then a.mapArgs (Argument.mapHead (.retextDefault w))
  else if a.is "relation" then
    a.mapArgs (Argument.mapFirst (·.isNamed "map") (.mapString fun _ => w.foreignKey))
  else if a.is "unique" then
    a.mapArgs (.map fun arg =>
      if arg.isNamed "map" then arg.mapValue (.mapString w.uniqueKey) else arg)
  else a

/-- Replaces the name in the second argument. -/
def retextSecond (text : String) : List Argument → List Argument
  | first :: second :: rest =>
    first :: (if second.isNamed "map" then second.mapValue (.mapString fun _ => text) else second) ::
      rest
  | args => args

/-- Replaces the name of an index. -/
def retextIndex (text : String) (a : Attribute) : Attribute :=
  if a.is "index" then a.mapArgs (retextSecond text) else a

end Attribute

/-! ### Blocks -/

/-- Replaces the texts of a field. -/
def Field.retext (T : Texts) (model : String) (f : Field) : Field :=
  { f with
    attributes := f.attributes.map (·.retextOnField (T.around model f.name.name f.type))
    comment := f.comment.map (·.cleared) }

/-- Replaces the texts on a line of a model, where `number` indexes came before. -/
def ModelMember.retext (T : Texts) (model : String) (number : Nat) :
    ModelMember → ModelMember × Nat
  | .field f => (.field (f.retext T model), number)
  | .blockAttribute a =>
    (.blockAttribute ⟨a.attr.retextIndex (T.index model number), a.comment.map (·.cleared)⟩,
      if a.attr.is "index" then number + 1 else number)
  | .comment c => (.comment c.cleared, number)

/-- Replaces the texts of a model. -/
def Model.retext (T : Texts) (m : Model) : Model :=
  { m with members := (numberAlong (ModelMember.retext T m.name.name) 0 m.members).1 }

/-- Clears the comments on a line of an enum. -/
def EnumMember.cleared : EnumMember → EnumMember
  | .value v => .value { v with comment := v.comment.map (·.cleared) }
  | .blockAttribute a => .blockAttribute { a with comment := a.comment.map (·.cleared) }
  | .comment c => .comment c.cleared

/-- Clears the comments on a line of a block of configuration. -/
def ConfigMember.cleared : ConfigMember → ConfigMember
  | .property p => .property { p with comment := p.comment.map (·.cleared) }
  | .comment c => .comment c.cleared

/-- Replaces the texts of a declaration. -/
def Declaration.retext (T : Texts) : Declaration → Declaration
  | .config b => .config { b with members := b.members.map (·.cleared) }
  | .model m => .model (m.retext T)
  | .enum e => .enum { e with members := e.members.map (·.cleared) }
  | .comments b => .comments { b with comments := [] }

/-- Replaces the texts of a schema. -/
def Schema.retext (T : Texts) (s : Schema) : Schema := ⟨s.declarations.map (·.retext T)⟩

/-! ### Texts and names -/

namespace Value

variable {w w' : FieldTexts} {f : String → String} {v : Value}

theorem renameItem_of_isLiteral (h : v.isLiteral = true) : v.renameItem f = v := by
  cases v with
  | path segments => cases h
  | _ => rfl

theorem isLiteral_retextItem (w : FieldTexts) (v : Value) :
    (v.retextItem w).isLiteral = v.isLiteral := by
  by_cases h : v.isLiteral = true
  · rw [retextItem_of_isLiteral h, h]
    cases hw : w.literal with
    | none => exact h
    | some l => exact w.isLiteral l hw
  · cases v with
    | call name args =>
      rw [retextItem_call]
      split <;> rfl
    | array items => rfl
    | path segments => rfl
    | _ => exact absurd rfl h

theorem array?_retextItem (h : v.array? = none) : (v.retextItem w).array? = none := by
  have hl := isLiteral_retextItem w v
  cases v with
  | call name args =>
    rw [retextItem_call]
    split <;> rfl
  | array items => cases h
  | path segments => rfl
  | _ =>
    generalize retextItem w _ = u at hl ⊢
    cases u with
    | array items => cases hl
    | _ => rfl

theorem renameItem_retextItem (f : String → String) (w : FieldTexts) (v : Value) :
    (v.retextItem w).renameItem f = (v.renameItem f).retextItem w := by
  by_cases h : v.isLiteral = true
  · rw [renameItem_of_isLiteral h, renameItem_of_isLiteral ((isLiteral_retextItem w v).trans h)]
  · cases v with
    | call name args =>
      have hcall : (Value.call name args).renameItem f = .call name args := rfl
      rw [hcall, retextItem_call]
      split <;> rfl
    | array items => rfl
    | path segments =>
      match segments with
      | [] => rfl
      | [name] => rfl
      | _ :: _ :: _ => rfl
    | _ => exact absurd rfl h

theorem renameDefault_retextDefault (f : String → String) (w : FieldTexts) (v : Value) :
    (v.retextDefault w).renameDefault f = (v.renameDefault f).retextDefault w := by
  cases hv : v.array? with
  | some items =>
    rw [eq_array_of_array? hv]
    simp only [retextDefault, renameDefault, List.map_map, Function.comp_def, renameItem_retextItem]
  | none =>
    rw [retextDefault_of_array?_none hv, renameDefault_of_array?_none (array?_retextItem hv),
      renameDefault_of_array?_none hv, retextDefault_of_array?_none (array?_renameItem hv),
      renameItem_retextItem]

end Value

namespace Attribute

variable {ρ : Renaming} {model : String} {type : FieldType} {w : FieldTexts}

@[simp] theorem retextOnField_is (w : FieldTexts) (a : Attribute) (x : String) :
    (a.retextOnField w).is x = a.is x := by
  unfold retextOnField
  split
  · rfl
  · split
    · rfl
    · split <;> rfl

@[simp] theorem retextIndex_is (text : String) (a : Attribute) (x : String) :
    (a.retextIndex text).is x = a.is x := by
  unfold retextIndex
  split <;> rfl

theorem retextOnField_of_default {a : Attribute} (h : a.is "default" = true) :
    a.retextOnField w = a.mapArgs (Argument.mapHead (.retextDefault w)) := by
  rw [retextOnField, if_pos h]

theorem retextOnField_of_relation {a : Attribute} (h : a.is "relation" = true) :
    a.retextOnField w =
      a.mapArgs (Argument.mapFirst (·.isNamed "map") (.mapString fun _ => w.foreignKey)) := by
  have hn : a.is "default" = false := is_of_ne h (by decide)
  simp only [retextOnField, hn, h, ↓reduceIte, Bool.false_eq_true]

theorem retextOnField_of_unique {a : Attribute} (h : a.is "unique" = true) :
    a.retextOnField w = a.mapArgs (.map fun arg =>
      if arg.isNamed "map" then arg.mapValue (.mapString w.uniqueKey) else arg) := by
  have hn : a.is "default" = false := is_of_ne h (by decide)
  have hn' : a.is "relation" = false := is_of_ne h (by decide)
  simp only [retextOnField, hn, hn', h, ↓reduceIte, Bool.false_eq_true]

theorem renameDeclared_retextOnField (ρ : Renaming) (model : String) (w : FieldTexts)
    (a : Attribute) :
    (a.retextOnField w).renameDeclared ρ model = (a.renameDeclared ρ model).retextOnField w := by
  by_cases hr : a.is "relation" = true
  · rw [retextOnField_of_relation hr, retextOnField_of_relation (by simpa using hr)]
    unfold renameDeclared
    rw [mapArgs_is, declaresRelation_mapFirst]
    split
    · show { a with args := _ } = { a with args := _ }
      rw [mapArgs_args, mapArgs_args,
        Argument.mapFirst_comm (Argument.namesRelation_excludes (by decide) _)
          (Argument.isNamed_excludes_namesRelation (by decide) _)]
    · rfl
  · rw [renameDeclared_of_not_relation hr, renameDeclared_of_not_relation (by simpa using hr)]

theorem renameReferences_retextOnField (ρ : Renaming) (model : String) (type : FieldType)
    (w : FieldTexts) (a : Attribute) :
    (a.retextOnField w).renameReferences ρ model type =
      (a.renameReferences ρ model type).retextOnField w := by
  by_cases hd : a.is "default" = true
  · have hrename : ∀ b : Attribute, b.is "default" = true → b.renameReferences ρ model type =
        b.mapArgs (Argument.mapHead (.renameDefault (type.scope ρ.value))) := by
      intro b hb
      rw [renameReferences, if_pos hb]
    rw [hrename _ (by simpa using hd), hrename a hd, retextOnField_of_default hd,
      retextOnField_of_default (by simpa using hd)]
    show { a with args := _ } = { a with args := _ }
    rw [mapArgs_args, mapArgs_args]
    cases a.args with
    | nil => rfl
    | cons first rest =>
      simp only [Argument.mapHead, Argument.mapValue_mapValue, Value.renameDefault_retextDefault]
  by_cases hr : a.is "relation" = true
  · rw [retextOnField_of_relation hr, renameReferences_of_relation hr,
      renameReferences_of_relation (by simpa using hr), retextOnField_of_relation (by simpa using hr),
      declaresRelation_mapFirst]
    show { a with args := _ } = { a with args := _ }
    rw [mapArgs_args, mapArgs_args, mapFirst_map_renameRelationArgs]
  · have hrename : ∀ b : Attribute, ¬b.is "default" = true → ¬b.is "relation" = true →
        b.renameReferences ρ model type = b := by
      intro b hb hb'
      rw [renameReferences, if_neg hb, if_neg hb']
    rw [hrename a hd hr, hrename _ (by simpa using hd) (by simpa using hr)]

theorem renameKeys_retextIndex (ρ : Renaming) (model text : String) (a : Attribute) :
    (a.retextIndex text).renameKeys ρ model = (a.renameKeys ρ model).retextIndex text := by
  by_cases h : a.is "index" = true
  · have hu : a.is "unique" = false := is_of_ne h (by decide)
    simp only [renameKeys, retextIndex_is, hu, Bool.false_eq_true, ↓reduceIte]
  · simp only [retextIndex, renameKeys_is, h, Bool.false_eq_true, ↓reduceIte]

theorem renameLists_retextIndex (ρ : Renaming) (model text : String) (a : Attribute) :
    (a.retextIndex text).renameLists ρ model = (a.renameLists ρ model).retextIndex text := by
  by_cases h : a.is "index" = true
  · simp only [renameLists, h, Bool.true_or, ↓reduceIte, retextIndex, mapArgs_is]
    show { a with args := _ } = { a with args := _ }
    rw [mapArgs_args, mapArgs_args]
    rcases a.args with _ | ⟨first, _ | ⟨second, rest⟩⟩ <;> rfl
  · simp only [retextIndex, renameLists_is, h, Bool.false_eq_true, ↓reduceIte]

end Attribute

/-! ### One replacement after another -/

/-- After the second replacement nothing is left to see of the first. -/
structure FieldTexts.Absorbs (w' w : FieldTexts) : Prop where
  literal : ∀ v : Value, w'.literal.getD (w.literal.getD v) = w'.literal.getD v
  isTime : w'.isTime = w.isTime
  uniqueKey : ∀ old, w'.uniqueKey (w.uniqueKey old) = w'.uniqueKey old

section Absorbs

variable {w w' : FieldTexts}

theorem Value.retextItem_retextItem (h : w'.Absorbs w) (v : Value) :
    (v.retextItem w).retextItem w' = v.retextItem w' := by
  by_cases hv : v.isLiteral = true
  · rw [retextItem_of_isLiteral ((isLiteral_retextItem w v).trans hv), retextItem_of_isLiteral hv,
      retextItem_of_isLiteral hv, h.literal]
  · cases v with
    | call name args =>
      rw [retextItem_call, retextItem_call, h.isTime]
      by_cases ht : (name == "dbgenerated" && w.isTime) = true
      · rw [if_pos ht]
        rfl
      · rw [if_neg ht, retextItem_call, h.isTime, if_neg ht]
    | array items => rfl
    | path segments => rfl
    | _ => exact absurd rfl hv

theorem Value.retextDefault_retextDefault (h : w'.Absorbs w) (v : Value) :
    (v.retextDefault w).retextDefault w' = v.retextDefault w' := by
  cases hv : v.array? with
  | some items =>
    rw [eq_array_of_array? hv]
    simp only [retextDefault, List.map_map, Function.comp_def, retextItem_retextItem h]
  | none =>
    rw [retextDefault_of_array?_none hv, retextDefault_of_array?_none (array?_retextItem hv),
      retextDefault_of_array?_none hv, retextItem_retextItem h]

theorem Value.mapString_mapString (f g : String → String) (v : Value) :
    (v.mapString f).mapString g = v.mapString fun text => g (f text) := by
  cases v <;> rfl

theorem Attribute.retextOnField_retextOnField (h : w'.Absorbs w) (a : Attribute) :
    (a.retextOnField w).retextOnField w' = a.retextOnField w' := by
  by_cases hd : a.is "default" = true
  · rw [retextOnField_of_default (w := w') (by simpa using hd), retextOnField_of_default hd,
      retextOnField_of_default hd]
    show { a with args := _ } = { a with args := _ }
    rw [mapArgs_args]
    cases a.args with
    | nil => rfl
    | cons first rest =>
      simp only [Argument.mapHead, Argument.mapValue_mapValue, Value.retextDefault_retextDefault h]
  by_cases hr : a.is "relation" = true
  · rw [retextOnField_of_relation (w := w') (by simpa using hr), retextOnField_of_relation hr,
      retextOnField_of_relation hr]
    show { a with args := _ } = { a with args := _ }
    have hnamed : ∀ arg : Argument, arg.isNamed "map" = true →
        (arg.mapValue (.mapString fun _ => w.foreignKey)).isNamed "map" = true := fun _ => id
    simp only [mapArgs_args, Argument.mapFirst_mapFirst hnamed, Value.mapString_mapString]
  by_cases hu : a.is "unique" = true
  · rw [retextOnField_of_unique (w := w') (by simpa using hu), retextOnField_of_unique hu,
      retextOnField_of_unique hu]
    show { a with args := _ } = { a with args := _ }
    rw [mapArgs_args, List.map_map]
    congr 1
    refine List.map_congr_left fun arg _ => ?_
    rw [Function.comp_apply]
    by_cases hm : arg.isNamed "map" = true
    · simp only [hm, ↓reduceIte, Argument.mapValue_isNamed, Argument.mapValue_mapValue,
        Value.mapString_mapString, h.uniqueKey]
    · simp only [hm, Bool.false_eq_true, ↓reduceIte]
  · simp only [retextOnField, hd, hr, hu, Bool.false_eq_true, ↓reduceIte]

theorem Attribute.retextIndex_retextIndex (text text' : String) (a : Attribute) :
    (a.retextIndex text).retextIndex text' = a.retextIndex text' := by
  by_cases h : a.is "index" = true
  · simp only [retextIndex, h, ↓reduceIte, mapArgs_is]
    show { a with args := _ } = { a with args := _ }
    rw [mapArgs_args]
    match a.args with
    | [] => rfl
    | [_] => rfl
    | first :: second :: rest =>
      simp only [retextSecond]
      by_cases hm : second.isNamed "map" = true
      · simp only [hm, ↓reduceIte, Argument.mapValue_isNamed, Argument.mapValue_mapValue,
          Value.mapString_mapString]
      · simp only [hm, Bool.false_eq_true, ↓reduceIte]
  · simp only [retextIndex, h, Bool.false_eq_true, ↓reduceIte]

end Absorbs

theorem Comment.map_cleared_cleared (c : Option Comment) :
    (c.map (·.cleared)).map (·.cleared) = c.map (·.cleared) := by
  cases c <;> rfl

@[simp] theorem FieldType.scalar?_rename (f : String → String) (type : FieldType) :
    (type.rename f).scalar? = type.scalar? := by
  cases type with
  | named ident =>
    rw [FieldType.rename]
    split <;> rfl
  | _ => rfl

@[simp] theorem Texts.around_rename (T : Texts) (model field : String) (f : String → String)
    (type : FieldType) : T.around model field (type.rename f) = T.around model field type := by
  simp [Texts.around]

section Schemas

variable {T T' : Texts} {ρ : Renaming} {model new new' : String}

/-- The second texts absorb the first ones around a field, whatever its new name. -/
def Field.Absorbs (T' T : Texts) (model : String) (f : Field) : Prop :=
  ∀ model' field', (T'.around model' field' f.type).Absorbs (T.around model f.name.name f.type)

theorem Field.retext_rename_retext {f : Field} (h : f.Absorbs T' T new) :
    (((f.retext T new).renameDeclared ρ model).renameReferences ρ model).retext T' new' =
      ((f.renameDeclared ρ model).renameReferences ρ model).retext T' new' := by
  simp only [retext, renameDeclared, renameReferences, List.map_map, Comment.map_cleared_cleared,
    Texts.around_rename]
  congr 1
  refine List.map_congr_left fun a _ => ?_
  simp only [Function.comp_apply, Attribute.renameDeclared_retextOnField,
    Attribute.renameReferences_retextOnField, Attribute.retextOnField_retextOnField (h _ _)]

theorem ModelMember.retext_rename_retext {member : ModelMember} (number : Nat)
    (h : ∀ f, member = .field f → f.Absorbs T' T new) :
    retext T' new' number
        ((((member.retext T new number).1.renameDeclared ρ model)).renameReferences ρ model) =
      retext T' new' number ((member.renameDeclared ρ model).renameReferences ρ model) ∧
    (member.retext T new number).2 =
      (retext T' new' number ((member.renameDeclared ρ model).renameReferences ρ model)).2 := by
  cases member with
  | field f =>
    refine ⟨?_, rfl⟩
    simp only [retext, renameDeclared, renameReferences, Field.retext_rename_retext (h f rfl)]
  | blockAttribute a =>
    simp only [retext, renameDeclared, renameReferences, Comment.map_cleared_cleared,
      Attribute.renameKeys_retextIndex, Attribute.renameLists_retextIndex,
      Attribute.retextIndex_retextIndex, Attribute.retextIndex_is, Attribute.renameLists_is,
      Attribute.renameKeys_is]
    exact ⟨trivial, trivial⟩
  | comment c => exact ⟨rfl, rfl⟩

theorem Model.retext_rename_retext {m : Model} (h : ∀ f ∈ m.fields, f.Absorbs T' T m.name.name) :
    ((m.retext T).rename ρ).retext T' = (m.rename ρ).retext T' := by
  have hmembers := numberAlong_again (f := ModelMember.retext T m.name.name)
    (g := ModelMember.retext T' (ρ.type m.name.name))
    (h := fun member =>
      (member.renameDeclared ρ m.name.name).renameReferences ρ m.name.name) 0 m.members
    fun number member hmember => ModelMember.retext_rename_retext (ρ := ρ) number
      fun f hf => h f (List.mem_filterMap.mpr ⟨member, hmember, by rw [hf]; rfl⟩)
  simp only [retext, rename, Ident.rename, hmembers]

/-- A replacement of texts does not show behind a renaming and a replacement that absorbs it. -/
theorem Schema.retext_rename_retext {s : Schema}
    (h : ∀ m ∈ s.models, ∀ f ∈ m.fields, f.Absorbs T' T m.name.name) :
    ((s.retext T).rename ρ).retext T' = (s.rename ρ).retext T' := by
  simp only [retext, rename, List.map_map]
  congr 1
  refine List.map_congr_left fun d hd => ?_
  rw [Function.comp_apply, Function.comp_apply, Function.comp_apply]
  cases d with
  | model m =>
    have hm := h m (List.mem_filterMap.mpr ⟨_, hd, rfl⟩)
    simp only [Declaration.retext, Declaration.rename, Model.retext_rename_retext hm]
  | enum e =>
    simp only [Declaration.retext, Declaration.rename, Enum.rename, List.map_map]
    congr 2
    refine List.map_congr_left fun member _ => ?_
    cases member with
    | value v =>
      simp only [Function.comp_apply, EnumMember.cleared, EnumMember.rename, Comment.map_cleared_cleared]
    | blockAttribute a =>
      simp only [Function.comp_apply, EnumMember.cleared, EnumMember.rename, Comment.map_cleared_cleared]
    | comment c => rfl
  | config b =>
    simp only [Declaration.retext, Declaration.rename, List.map_map]
    congr 2
    refine List.map_congr_left fun member _ => ?_
    cases member with
    | property p => simp only [Function.comp_apply, ConfigMember.cleared, Comment.map_cleared_cleared]
    | comment c => rfl
  | comments b => rfl

end Schemas

end Pseudonym

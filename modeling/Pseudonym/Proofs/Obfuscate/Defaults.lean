/-
# Default values

What an obfuscation leaves of the default values. A literal becomes the
placeholder of its field's type, whatever it was; a constant becomes one that
the enum of the field declares in the result; a call stays, up to the names of
environment variables, but for an expression of the database that stands for a
time; and an array is treated item by item.

The relation `Value.DefaultReplaced` says this about two values and the type of
a field. It mentions neither a registry nor the old schema: the type and the
enum are those of the result, so a default fits the field it stands on.

Key definitions: `ScalarType.Placeholder`, `Value.ItemReplaced`,
`Value.DefaultReplaced`, `Schema.DefaultsReplaced`.
-/
import Pseudonym.Proofs.Obfuscate.KeptEnv
import Pseudonym.Proofs.Obfuscate.Parts

namespace Pseudonym

/-- The types whose literals are replaced, and what stands for them. -/
inductive ScalarType.Placeholder : ScalarType → Value → Prop
  | string : Placeholder .string (.string "DEFAULT")
  | int : Placeholder .int (.int 0)
  | boolean : Placeholder .boolean (.boolean false)
  | json : Placeholder .json (.string "[]")

namespace Value

/-- What may stand for a default value, or for an item of a default array, on a field that has
this type in the schema `t`. -/
inductive ItemReplaced (t : Schema) (type : FieldType) : Value → Value → Prop
  | literal {v w : Value} {scalar : ScalarType} (hv : v.isLiteral = true)
    (htype : type = .scalar scalar) (hw : scalar.Placeholder w) : ItemReplaced t type v w
  | constant {e : Enum} (name : String) {new : String} (he : t.enumOf type = some e)
    (hnew : new ∈ e.valueNames) : ItemReplaced t type (.path [name]) (.path [new])
  | time (args : List Argument) (htype : type = .scalar .dateTime) :
    ItemReplaced t type (.call "dbgenerated" args) (.call "now" [])
  | call {name : String} {args args' : List Argument}
    (hname : name = "dbgenerated" → type ≠ .scalar .dateTime)
    (hargs : (Value.call name args').blankEnv = (Value.call name args).blankEnv) :
    ItemReplaced t type (.call name args) (.call name args')

/-- What may stand for a default value. -/
inductive DefaultReplaced (t : Schema) (type : FieldType) : Value → Value → Prop
  | array {items items' : List Value} (h : List.Forall₂ (ItemReplaced t type) items items') :
    DefaultReplaced t type (.array items) (.array items')
  | item {v w : Value} (h : ItemReplaced t type v w) : DefaultReplaced t type v w

end Value

/-- An attribute of a field that has this type in the schema `t`, and what it was before: the
first argument of `@default` is replaced. -/
structure Attribute.DefaultReplaced (t : Schema) (type : FieldType) (a b : Attribute) : Prop where
  name : b.name = a.name
  value : a.is "default" = true →
    ∃ v w, a.firstArg? = some v ∧ b.firstArg? = some w ∧ v.DefaultReplaced t type w

/-- A field of the schema `t`, and what it was before: a scalar type stays, and every default is
replaced. -/
structure Field.DefaultsReplaced (t : Schema) (f g : Field) : Prop where
  scalar : g.type.scalar? = f.type.scalar?
  attributes : List.Forall₂ (Attribute.DefaultReplaced t g.type) f.attributes g.attributes

/-- Two schemas with the same models, fields and attributes, one by one, where the first argument of
every `@default` in the second is what may stand for the one in the first. Each literal among the
defaults of the second is the placeholder of its field's type. -/
structure Schema.DefaultsReplaced (s t : Schema) : Prop where
  fields : List.Forall₂ (fun m m' : Model =>
    List.Forall₂ (Field.DefaultsReplaced t) m.fields m'.fields) s.models t.models
  literals : ∀ m ∈ t.models, ∀ g ∈ m.fields, ∀ b ∈ g.attributes, b.is "default" = true →
    ∃ w, b.firstArg? = some w ∧ ∀ item ∈ w.defaults, item.isLiteral = true →
      ∃ scalar, g.type = .scalar scalar ∧ scalar.Placeholder item

/-! ### Literals -/

theorem FieldType.exists_placeholder {type : FieldType} (h : type.takesLiteral = true) :
    ∃ scalar w, type = .scalar scalar ∧ FieldSite.placeholder? scalar = some w ∧
      scalar.Placeholder w := by
  cases type with
  | scalar scalar =>
    cases scalar with
    | string => exact ⟨_, _, rfl, rfl, .string⟩
    | int => exact ⟨_, _, rfl, rfl, .int⟩
    | boolean => exact ⟨_, _, rfl, rfl, .boolean⟩
    | json => exact ⟨_, _, rfl, rfl, .json⟩
    | _ => cases h
  | named ident => cases h
  | unsupported text => cases h

namespace Value

variable {t : Schema} {type : FieldType} {v w : Value}

theorem takesLiteral_of_suitsItem {values : Option (List String)} (hv : v.isLiteral = true)
    (h : v.SuitsItem type values) : type.takesLiteral = true := by
  cases v with
  | string text => exact h
  | int number => exact h
  | number digits => exact h
  | boolean truth => exact h
  | _ => cases hv

theorem ItemReplaced.literal_of_isLiteral (h : ItemReplaced t type v w) (hw : w.isLiteral = true) :
    ∃ scalar, type = .scalar scalar ∧ scalar.Placeholder w := by
  cases h with
  | literal hv htype hplaceholder => exact ⟨_, htype, hplaceholder⟩
  | constant name he hnew => cases hw
  | time args htype => cases hw
  | call hname hargs => cases hw

/-- The literals of a default that was replaced are placeholders. -/
theorem DefaultReplaced.literal_of_isLiteral (h : DefaultReplaced t type v w) {item : Value}
    (hitem : item ∈ w.defaults) (hliteral : item.isLiteral = true) :
    ∃ scalar, type = .scalar scalar ∧ scalar.Placeholder item := by
  cases h with
  | array hitems =>
    obtain ⟨old, -, hreplaced⟩ := exists_left_of_forall₂ hitems hitem
    exact hreplaced.literal_of_isLiteral hliteral
  | item hreplaced =>
    have hself : w.defaults = [w] := by
      cases hreplaced with
      | literal hv htype hplaceholder => cases hplaceholder <;> rfl
      | constant name he hnew => rfl
      | time args htype => rfl
      | call hname hargs => rfl
    rw [hself, List.mem_singleton] at hitem
    subst hitem
    exact hreplaced.literal_of_isLiteral hliteral

end Value

/-! ### Results -/

namespace Schema

variable {n : Numbering} {s t : Schema} {r : Registry} {m : Model} {type type' : FieldType}

/-- A constant of the enum that is the type of a field becomes one of the enum that is its type in
the result. -/
theorem exists_enumOf_result (hs : s.typeNames.Nodup) (hb : Bound n s t)
    (htype : type.Resolved (s.outline n) type') {name : String}
    (hname : name ∈ (s.scopesAt m type).values.getD []) : ∃ e, t.enumOf type' = some e ∧
      type.scope (s.outline n).newNames.value name ∈ e.valueNames := by
  cases he : s.enumOf type with
  | none =>
    have hnone : (s.scopesAt m type).values = none := by
      rw [scopesAt, he]
      rfl
    rw [hnone] at hname
    cases hname
  | some e =>
    have hold : (s.scopesAt m type).values = some e.valueNames := by
      rw [scopesAt, he]
      rfl
    have hnew : (t.enumOf type').map (·.valueNames) =
        some (e.valueNames.map ((s.outline n).newValue e.name.name)) := by
      have hvalues := values_of_bound m m hs hb htype
      rw [newScopes, he] at hvalues
      exact hvalues
    obtain ⟨e', he', hvalues⟩ := Option.map_eq_some_iff.mp hnew
    obtain ⟨hmem, htypeName⟩ := enumOf_eq_some he
    rw [hold, Option.getD_some] at hname
    obtain ⟨o, ho, -, hvalue⟩ := newNames_value (n := n) hs hmem hname
    have hsame : (s.outline n).newNames.value e.name.name name =
        (s.outline n).newValue e.name.name name := by
      rw [hvalue, Outline.newValue, ho]
      rfl
    refine ⟨e', he', ?_⟩
    rw [(scope_of_typeName? (ρ := (s.outline n).newNames) htypeName _).1, hvalues, hsame]
    exact List.mem_map_of_mem hname

/-- One value: what stands for it fits the field. -/
theorem itemReplaced_result (hs : s.typeNames.Nodup) (hb : Bound n s t)
    (htype : type.Resolved (s.outline n) type') (model field : String) (k : Nat) {v : Value}
    (hv : v.SuitsItem type (s.scopesAt m type).values) :
    v.ItemReplaced t type' (((v.numberEnv k).1.renameItem
      (type.scope (s.outline n).newNames.value)).retextItem (Texts.neutral.around model field type)) := by
  have hscalar : ∀ {scalar}, type = .scalar scalar → type' = .scalar scalar := by
    rintro scalar rfl
    exact htype.eq_rename
  by_cases hliteral : v.isLiteral = true
  · obtain ⟨scalar, w, rfl, hw, hplaceholder⟩ :=
      FieldType.exists_placeholder (Value.takesLiteral_of_suitsItem hliteral hv)
    rw [Value.numberEnv_of_isLiteral hliteral, Value.renameItem_of_isLiteral hliteral,
      Value.retextItem_of_isLiteral hliteral]
    have hneutral : (Texts.neutral.around model field (.scalar scalar)).literal.getD v = w := by
      show (FieldSite.placeholder? scalar).getD v = w
      rw [hw]
      rfl
    rw [hneutral]
    exact .literal hliteral (hscalar rfl) hplaceholder
  · cases v with
    | path segments =>
      rcases segments with _ | ⟨name, _ | ⟨second, rest⟩⟩
      · cases hv
      · obtain ⟨e, he, hnew⟩ := exists_enumOf_result hs hb htype hv
        exact .constant name he hnew
      · cases hv
    | call name args =>
      obtain ⟨args', hargs'⟩ := Value.exists_numberEnv_call k name args
      have hblank := Value.blankEnv_numberEnv k (.call name args)
      rw [hargs'] at hblank ⊢
      show Value.ItemReplaced t type' _ ((Value.call name args').retextItem _)
      rw [Value.retextItem_call]
      by_cases htime : name = "dbgenerated" ∧ type.scalar? = some .dateTime
      · obtain ⟨rfl, hdate⟩ := htime
        have hdateTime : type = .scalar .dateTime := by
          cases type <;> cases hdate
          rfl
        subst hdateTime
        exact .time args (hscalar rfl)
      · have hkept : (name == "dbgenerated" &&
            (Texts.neutral.around model field type).isTime) = false := by
          show (name == "dbgenerated" && type.scalar? == some ScalarType.dateTime) = false
          rw [Bool.eq_false_iff]
          intro hboth
          rw [Bool.and_eq_true, beq_iff_eq, beq_iff_eq] at hboth
          exact htime hboth
        rw [hkept]
        refine .call ?_ hblank
        rintro rfl hdate
        rw [← htype.scalar?, hdate] at htime
        exact htime ⟨rfl, rfl⟩
    | array items => cases hv
    | _ => exact absurd rfl hliteral

/-- The items of an array, each of which is numbered where the one before it ends. -/
theorem itemsReplaced_result (hs : s.typeNames.Nodup) (hb : Bound n s t)
    (htype : type.Resolved (s.outline n) type') (model field : String) :
    ∀ (k : Nat) (items : List Value),
      (∀ item ∈ items, item.SuitsItem type (s.scopesAt m type).values) →
      List.Forall₂ (Value.ItemReplaced t type') items
        ((Value.numberEnvEach k items).1.map fun v => (v.renameItem
          (type.scope (s.outline n).newNames.value)).retextItem (Texts.neutral.around model field type))
  | _, [], _ => .nil
  | k, v :: items, h => by
    obtain ⟨hv, hitems⟩ := List.forall_mem_cons.mp h
    exact .cons (itemReplaced_result hs hb htype model field k hv)
      (itemsReplaced_result hs hb htype model field (v.numberEnv k).2 items hitems)

theorem valueReplaced_result (hs : s.typeNames.Nodup) (hb : Bound n s t)
    (htype : type.Resolved (s.outline n) type') (model field : String) (k : Nat) {v : Value}
    (hv : v.SuitsDefault type (s.scopesAt m type).values) :
    v.DefaultReplaced t type' (((v.numberEnv k).1.renameDefault
      (type.scope (s.outline n).newNames.value)).retextDefault
        (Texts.neutral.around model field type)) := by
  cases harray : v.array? with
  | some items =>
    obtain rfl := Value.eq_array_of_array? harray
    have hitems := itemsReplaced_result hs hb htype model field k items hv
    have hresult : (((Value.array items).numberEnv k).1.renameDefault
        (type.scope (s.outline n).newNames.value)).retextDefault
          (Texts.neutral.around model field type) =
        .array ((Value.numberEnvEach k items).1.map fun v => (v.renameItem
          (type.scope (s.outline n).newNames.value)).retextItem
            (Texts.neutral.around model field type)) := by
      simp only [Value.numberEnv, Value.renameDefault, Value.retextDefault, List.map_map,
        Function.comp_def]
    rw [hresult]
    exact .array hitems
  | none =>
    have hsuits : v.SuitsItem type (s.scopesAt m type).values := by
      cases v with
      | array items => cases harray
      | _ => exact hv
    have hnumbered : (v.numberEnv k).1.array? = none := by
      cases v with
      | array items => cases harray
      | call name args =>
        obtain ⟨args', hargs'⟩ := Value.exists_numberEnv_call k name args
        rw [hargs']
        rfl
      | _ => rfl
    rw [Value.renameDefault_of_array?_none hnumbered,
      Value.retextDefault_of_array?_none (Value.array?_renameItem hnumbered)]
    exact .item (itemReplaced_result hs hb htype model field k hsuits)

/-- One attribute: it keeps its name, and if it is a default, what stands for it fits the field. -/
theorem defaultReplaced_result (hs : s.typeNames.Nodup) (hb : Bound n s t)
    (htype : type.Resolved (s.outline n) type') (model new field : String) (k : Nat) {a : Attribute}
    (ha : a.is "default" = true → a.SuitsDefault type (s.scopesAt m type)) :
    a.DefaultReplaced t type' (a.result (s.outline n).newNames model k type
      (Texts.neutral.around new field type)) where
  name := Attribute.name_result
  value hdefault := by
    obtain ⟨first, rest, hargs, hfirst⟩ := ha hdefault
    refine ⟨first.value, _, by rw [Attribute.firstArg?, hargs]; rfl, ?_,
      valueReplaced_result hs hb htype new field k hfirst⟩
    rw [Attribute.firstArg?, Attribute.args_result_default hdefault, hargs,
      Argument.numberEnvEach_cons]
    rfl

/-- The literals are placeholders if all defaults are replaced. -/
theorem DefaultsReplaced.of_fields (hmodels : List.Forall₂ (fun m m' : Model =>
    List.Forall₂ (Field.DefaultsReplaced t) m.fields m'.fields) s.models t.models) :
    s.DefaultsReplaced t where
  fields := hmodels
  literals m' hm' g hg b hmem hdefault := by
    obtain ⟨m, -, hfields⟩ := exists_left_of_forall₂ hmodels hm'
    obtain ⟨f, -, hfield⟩ := exists_left_of_forall₂ hfields hg
    obtain ⟨a, -, hab⟩ := exists_left_of_forall₂ hfield.attributes hmem
    have hold : a.is "default" = true := by
      rw [Attribute.is, ← hab.name]
      exact hdefault
    obtain ⟨v, w, -, hw, hvalue⟩ := hab.value hold
    exact ⟨w, hw, fun item hitem => hvalue.literal_of_isLiteral hitem⟩

/-- **Defaults fit their fields.** Where an obfuscation succeeds, the first argument of every
`@default` is replaced by what fits the type of its field in the result, item by item if it is an
array, and no literal but a placeholder is left. -/
theorem defaults_obfuscate (h : s.obfuscate n = .ok (t, r)) : s.DefaultsReplaced t := by
  obtain ⟨haccepted, hb, hmodels⟩ := parts_of_ok h
  refine .of_fields (hmodels.imp ?_)
  rintro m m' ⟨hm, hbm, hfields⟩
  refine (forall₂_both (forall₂_mem hbm.fields) hfields).imp ?_
  rintro f _ ⟨⟨hf, hbf⟩, k, rfl⟩
  refine ⟨hbf.type.scalar?, (forall₂_mem (f.forall₂_attributes_result _ m.name.name k)).imp ?_⟩
  rintro a _ ⟨ha, k, rfl⟩
  exact defaultReplaced_result haccepted.types hb hbf.type _ _ _ k
    (haccepted.defaults m hm f hf a ha)

/-- A model with a default of every kind: literals, one that is no word of its type and some in an
array, constants of an enum that comes later, expressions of the database on a time and on another
type, and a call that reads an environment variable. Two defaults are on one field. -/
def stocked : Schema :=
  let here : Span := ⟨0, 0, 1⟩
  let default (value : Value) : Attribute := ⟨⟨"default", here⟩, [⟨none, value, here⟩], here⟩
  let field (name : String) (type : FieldType) (values : List Value) : ModelMember :=
    .field ⟨⟨name, here⟩, type, .list, values.map default, none, here⟩
  let generated : Value := .call "dbgenerated" [⟨none, .string "now() at time zone 'utc'", here⟩]
  ⟨[.model ⟨⟨"Item", here⟩, [
      field "label" (.scalar .string) [.string "secret", .array [.string "a", .int 7]],
      field "stock" (.scalar .int) [.array [.int 12, .number "1.50", .boolean true]],
      field "extra" (.scalar .json) [.string "\x7b\x7d"],
      field "sizes" (.named ⟨"Size", here⟩) [.array [.path ["LARGE"], .path ["SMALL"]], .path ["SMALL"]],
      field "made" (.scalar .dateTime) [generated, .array [generated]],
      field "code" (.scalar .bytes) [generated, .call "env" [⟨none, .string "CODE", here⟩]]], here⟩,
    .enum ⟨⟨"Size", here⟩, [.value ⟨⟨"SMALL", here⟩, [], none, here⟩,
      .value ⟨⟨"LARGE", here⟩, [], none, here⟩], here⟩]⟩

theorem defaults_obfuscate_stocked : ∃ t r, stocked.obfuscate .global = .ok (t, r) ∧
    stocked.DefaultsReplaced t := by
  have hok : (stocked.obfuscate .global).toBool = true := by decide +kernel
  cases h : stocked.obfuscate .global with
  | error e =>
    rw [h] at hok
    cases hok
  | ok p => exact ⟨p.1, p.2, rfl, defaults_obfuscate h⟩

end Schema

end Pseudonym

/-
# Environment variables in texts that are replaced

The numbers of environment variables are given before texts are replaced. An
expression of the database that gives way to the current time is dropped with
the environment variables it reads, so their numbers are missing in the
result: `Schema.dropsEnv` tells whether a schema has such an expression. Where
it has none, texts can be replaced before the numbers are given, and a schema
whose texts are neutral has none.
-/
import Pseudonym.Proofs.Obfuscate.Bindings
import Pseudonym.Proofs.Obfuscate.RenamedTwice

namespace Pseudonym

mutual

/-- Whether an environment variable is read in a value: whether a call of `env` stands in it whose
first argument is a literal. -/
def Value.readsEnv : Value → Bool
  | .call name args =>
    Argument.anyReadsEnv args || (isEnvCall name && args.head?.any (·.value.isLiteral))
  | .array items => Value.anyReadsEnv items
  | .string _ | .int _ | .number _ | .boolean _ | .path _ => false

/-- Whether an environment variable is read in one of some values. -/
def Value.anyReadsEnv : List Value → Bool
  | [] => false
  | value :: rest => value.readsEnv || Value.anyReadsEnv rest

/-- Whether an environment variable is read in one of some arguments. -/
def Argument.anyReadsEnv : List Argument → Bool
  | [] => false
  | ⟨_, value, _⟩ :: rest => value.readsEnv || Argument.anyReadsEnv rest

end

namespace Value

/-- Whether a value is an expression of the database that reads an environment variable. -/
def dropsEnv : Value → Bool
  | .call name args => name == "dbgenerated" && Argument.anyReadsEnv args
  | _ => false

/-- The values that a default consists of. -/
def defaults : Value → List Value
  | .array items => items
  | value => [value]

end Value

/-- Whether a default is or has an expression of the database that reads an environment
variable. -/
def Attribute.dropsEnv (a : Attribute) : Bool :=
  a.is "default" && a.firstArg?.any (·.defaults.any (·.dropsEnv))

/-- Whether the default of a time has an expression of the database that reads an environment
variable. -/
def Field.dropsEnv (f : Field) : Bool :=
  f.type.scalar? == some .dateTime && f.attributes.any (·.dropsEnv)

/-- Whether there is such a field. -/
def Schema.dropsEnv (s : Schema) : Bool := s.models.any fun m => m.fields.any (·.dropsEnv)

/-! ### Values that read nothing -/

mutual

theorem Value.numberEnv_of_readsEnv (n : Nat) : ∀ v : Value, v.readsEnv = false →
    (v.numberEnv n).2 = n
  | .call name [], _ => rfl
  | .call name (⟨argName, value, span⟩ :: rest), h => by
    simp only [Value.readsEnv, Bool.or_eq_false_iff, List.head?_cons, Option.any_some] at h
    rw [Value.numberEnv_call_snd, h.2]
    exact Argument.numberEnvEach_of_anyReadsEnv n _ h.1
  | .array items, h => by
    simp only [Value.numberEnv]
    exact Value.numberEnvEach_of_anyReadsEnv n items (by simpa only [Value.readsEnv] using h)
  | .string _, _ | .int _, _ | .number _, _ | .boolean _, _ | .path _, _ => by
    simp only [Value.numberEnv]

theorem Value.numberEnvEach_of_anyReadsEnv (n : Nat) : ∀ l : List Value,
    Value.anyReadsEnv l = false → (Value.numberEnvEach n l).2 = n
  | [], _ => rfl
  | v :: l, h => by
    simp only [Value.anyReadsEnv, Bool.or_eq_false_iff] at h
    simp only [Value.numberEnvEach, Value.numberEnv_of_readsEnv n v h.1,
      Value.numberEnvEach_of_anyReadsEnv n l h.2]

theorem Argument.numberEnvEach_of_anyReadsEnv (n : Nat) : ∀ args : List Argument,
    Argument.anyReadsEnv args = false → (Argument.numberEnvEach n args).2 = n
  | [], _ => rfl
  | ⟨_, value, _⟩ :: rest, h => by
    simp only [Argument.anyReadsEnv, Bool.or_eq_false_iff] at h
    simp only [Argument.numberEnvEach, Value.numberEnv_of_readsEnv n value h.1,
      Argument.numberEnvEach_of_anyReadsEnv n rest h.2]

end

/-! ### Numbers and replaced texts -/

section Values

variable {w : FieldTexts}

theorem Value.exists_numberEnv_call (n : Nat) (name : String) (args : List Argument) :
    ∃ args', ((Value.call name args).numberEnv n).1 = .call name args' := by
  simp only [numberEnv]
  split
  · exact ⟨[], rfl⟩
  · split
    · exact ⟨_, rfl⟩
    · exact ⟨_, rfl⟩

theorem Value.numberEnv_retextItem {v : Value} (h : w.isTime = true → v.dropsEnv = false) (n : Nat) :
    (v.retextItem w).numberEnv n = ((v.numberEnv n).1.retextItem w, (v.numberEnv n).2) := by
  by_cases hv : v.isLiteral = true
  · have hw : (v.retextItem w).isLiteral = true := (isLiteral_retextItem w v).trans hv
    rw [numberEnv_of_isLiteral hv, numberEnv_of_isLiteral hw]
  · cases v with
    | call name args =>
      by_cases hdrop : (name == "dbgenerated" && w.isTime) = true
      · obtain ⟨hname, htime⟩ := Bool.and_eq_true_iff.mp hdrop
        have hcount : (Argument.numberEnvEach n args).2 = n := by
          refine Argument.numberEnvEach_of_anyReadsEnv n args ?_
          simpa only [dropsEnv, hname, Bool.true_and] using h htime
        have henv : isEnvCall name = false := by
          rw [beq_iff_eq.mp hname]
          rfl
        rw [numberEnv_call_of_not_env henv, retextItem_call, retextItem_call, if_pos hdrop,
          if_pos hdrop, hcount]
        rfl
      · obtain ⟨args', hargs⟩ := exists_numberEnv_call n name args
        rw [hargs, retextItem_call, retextItem_call, if_neg hdrop, if_neg hdrop, ← hargs]
    | array items => rfl
    | path segments => rfl
    | _ => exact absurd rfl hv

theorem Value.numberEnvEach_retextItem : ∀ (n : Nat) (l : List Value),
    (w.isTime = true → ∀ v ∈ l, v.dropsEnv = false) →
    numberEnvEach n (l.map (·.retextItem w)) =
      ((numberEnvEach n l).1.map (·.retextItem w), (numberEnvEach n l).2)
  | _, [], _ => rfl
  | n, v :: l, h => by
    have hv := numberEnv_retextItem (fun ht => h ht v List.mem_cons_self) n
    have ih := numberEnvEach_retextItem (v.numberEnv n).2 l fun ht u hu =>
      h ht u (List.mem_cons_of_mem v hu)
    simp only [List.map_cons, numberEnvEach, hv, ih]

theorem Value.numberEnv_retextDefault {v : Value}
    (h : w.isTime = true → ∀ item ∈ v.defaults, item.dropsEnv = false) (n : Nat) :
    (v.retextDefault w).numberEnv n = ((v.numberEnv n).1.retextDefault w, (v.numberEnv n).2) := by
  cases hv : v.array? with
  | some items =>
    obtain rfl := eq_array_of_array? hv
    have hitems := numberEnvEach_retextItem n items h
    simp only [retextDefault, numberEnv, hitems]
  | none =>
    have hself : v ∈ v.defaults := by
      cases v with
      | array items => cases hv
      | _ => exact List.mem_singleton.mpr rfl
    rw [retextDefault_of_array?_none hv, retextDefault_of_array?_none (array?_numberEnv hv n),
      numberEnv_retextItem (fun ht => h ht v hself) n]

end Values

namespace Attribute

theorem numberEnv_retextOnField {w : FieldTexts} {a : Attribute}
    (h : w.isTime = true → a.dropsEnv = false) (n : Nat) :
    (a.retextOnField w).numberEnv n = ((a.numberEnv n).1.retextOnField w, (a.numberEnv n).2) := by
  by_cases hd : a.is "default" = true
  · rw [retextOnField_of_default hd, retextOnField_of_default (a := (a.numberEnv n).1) hd]
    refine numberEnv_mapArgs ?_
    cases hargs : a.args with
    | nil => rfl
    | cons first rest =>
      have hfirst := Value.numberEnv_retextDefault (w := w) (v := first.value)
        (fun ht item hitem => by
          have hkeeps := h ht
          simp only [dropsEnv, hd, Bool.true_and, firstArg?, hargs, List.head?_cons, Option.map_some,
            Option.any_some, List.any_eq_false] at hkeeps
          simpa using hkeeps item hitem) n
      simp only [Argument.mapHead, Argument.numberEnvEach_cons, Argument.mapValue_value, hfirst,
        Argument.mapValue_mapValue]
      refine congrArg (fun v => (v :: _, _)) ?_
      cases first
      simp only [Argument.mapValue, hfirst]
  by_cases hr : a.is "relation" = true
  · rw [retextOnField_of_relation hr, retextOnField_of_relation (a := (a.numberEnv n).1) hr]
    exact numberEnv_mapArgs (Argument.numberEnvEach_mapFirst (Argument.unnumbered_isNamed "map")
      (Value.unnumbered_mapString _) n a.args)
  by_cases hu : a.is "unique" = true
  · rw [retextOnField_of_unique hu, retextOnField_of_unique (a := (a.numberEnv n).1) hu]
    refine numberEnv_mapArgs (Argument.numberEnvEach_map (fun n arg => ?_) n a.args)
    by_cases hm : arg.isNamed "map" = true
    · have hstring := Value.unnumbered_mapString w.uniqueKey n arg.value
      simp only [hm, ↓reduceIte, Argument.mapValue_isNamed, Argument.mapValue_value, hstring,
        Argument.mapValue_mapValue, true_and]
      cases arg
      simp only [Argument.mapValue, hstring]
    · simp only [hm, Bool.false_eq_true, ↓reduceIte, Argument.mapValue_isNamed,
        Argument.mapValue_value, and_self]
  · simp only [retextOnField, numberEnv_is, hd, hr, hu, Bool.false_eq_true, ↓reduceIte]

theorem numberEnv_retextIndex (text : String) (n : Nat) (a : Attribute) :
    (a.retextIndex text).numberEnv n = ((a.numberEnv n).1.retextIndex text, (a.numberEnv n).2) := by
  by_cases hi : a.is "index" = true
  · simp only [retextIndex, numberEnv_is, hi, ↓reduceIte]
    refine numberEnv_mapArgs ?_
    rcases a.args with _ | ⟨first, _ | ⟨second, rest⟩⟩
    · rfl
    · cases first
      rfl
    · by_cases hm : second.isNamed "map" = true
      · have hstring := Value.unnumbered_mapString (fun _ => text) (first.value.numberEnv n).2
        simp only [retextSecond, Argument.numberEnvEach_cons, Argument.mapValue_isNamed, hm,
          ↓reduceIte, Argument.mapValue_value, Argument.mapValue_mapValue, hstring]
      · simp only [retextSecond, Argument.numberEnvEach_cons, Argument.mapValue_isNamed, hm,
          Bool.false_eq_true, ↓reduceIte]
  · simp only [retextIndex, numberEnv_is, hi, Bool.false_eq_true, ↓reduceIte]

end Attribute

/-- Numbering a line and replacing its texts. -/
theorem ModelMember.numberEnv_retext (T : Texts) (model : String) (i k : Nat)
    (member : ModelMember) (h : ∀ f, member = .field f → f.dropsEnv = false) :
    (member.retext T model i).1.numberEnv k =
        (((member.numberEnv k).1.retext T model i).1, (member.numberEnv k).2) ∧
      ((member.numberEnv k).1.retext T model i).2 = (member.retext T model i).2 := by
  cases member with
  | field f =>
    refine ⟨?_, rfl⟩
    have hattributes := numberAlong_map_of_mem (f := Attribute.numberEnv)
      (h := (·.retextOnField (T.around model f.name.name f.type))) k f.attributes
      fun n a ha => Attribute.numberEnv_retextOnField
        (fun ht => by
          have hkeeps := h f rfl
          have htime : (f.type.scalar? == some .dateTime) = true := ht
          rw [Field.dropsEnv, htime, Bool.true_and, List.any_eq_false] at hkeeps
          simpa using hkeeps a ha) n
    simp only [retext, Field.retext, numberEnv, Field.numberEnv, hattributes, Prod.map, id_eq]
  | blockAttribute a =>
    simp only [retext, numberEnv, BlockAttribute.numberEnv, Attribute.numberEnv_retextIndex,
      Attribute.numberEnv_is, Prod.map, id_eq]
    exact ⟨trivial, rfl⟩
  | comment c => exact ⟨rfl, rfl⟩

/-- **Numbers and texts.** Where no replaced text reads an environment variable, it does not matter
whether texts are replaced before or after numbers are given. -/
theorem Schema.numberEnv_retext (T : Texts) {s : Schema} (h : s.dropsEnv = false) (k : Nat) :
    ((s.retext T).numberEnv k).1 = (s.numberEnv k).1.retext T := by
  have hdeclarations := numberAlong_map_of_mem (f := Declaration.numberEnv)
    (g := Declaration.numberEnv) (h := (·.retext T)) (k := (·.retext T)) k s.declarations
    (fun k d hd => by
      cases d with
      | model m =>
        have hmembers := numberAlong_comm (f := ModelMember.retext T m.name.name)
          (g := ModelMember.numberEnv) 0 k m.members
          fun i k member hmember => member.numberEnv_retext T m.name.name i k
            fun f hf => by
              rw [dropsEnv, List.any_eq_false] at h
              have hm := h m (List.mem_filterMap.mpr ⟨_, hd, rfl⟩)
              rw [Bool.not_eq_true, List.any_eq_false] at hm
              simpa using hm f (List.mem_filterMap.mpr ⟨member, hmember, by rw [hf]; rfl⟩)
        simp only [Declaration.retext, Model.retext, Declaration.numberEnv, hmembers, Prod.map, id_eq]
      | enum e =>
        have hmembers : numberAlong EnumMember.numberEnv k (e.members.map (·.cleared)) =
            ((numberAlong EnumMember.numberEnv k e.members).1.map (·.cleared),
              (numberAlong EnumMember.numberEnv k e.members).2) :=
          numberAlong_map (fun n a => by cases a <;> rfl) k e.members
        simp only [Declaration.retext, Declaration.numberEnv, hmembers, Prod.map, id_eq]
      | config b =>
        have hmembers : numberAlong ConfigMember.numberEnv k (b.members.map (·.cleared)) =
            ((numberAlong ConfigMember.numberEnv k b.members).1.map (·.cleared),
              (numberAlong ConfigMember.numberEnv k b.members).2) :=
          numberAlong_map (fun n a => by cases a <;> rfl) k b.members
        simp only [Declaration.retext, Declaration.numberEnv, hmembers, Prod.map, id_eq]
      | comments b => rfl)
  simp only [numberEnv, retext, hdeclarations, Prod.map]

/-! ### What is dropped after a change -/

theorem Value.dropsEnv_renameItem (f : String → String) (v : Value) :
    (v.renameItem f).dropsEnv = v.dropsEnv := by
  match v with
  | .path [] => rfl
  | .path [_] => rfl
  | .path (_ :: _ :: _) => rfl
  | .string _ | .int _ | .number _ | .boolean _ | .call _ _ | .array _ => rfl

theorem Value.any_dropsEnv_renameDefault (f : String → String) (v : Value) :
    (v.renameDefault f).defaults.any (·.dropsEnv) = v.defaults.any (·.dropsEnv) := by
  cases hv : v.array? with
  | some items =>
    obtain rfl := eq_array_of_array? hv
    simp only [renameDefault, defaults, List.any_map, Function.comp_def, dropsEnv_renameItem]
  | none =>
    have hone : ∀ u : Value, u.array? = none → u.defaults = [u] := by
      intro u hu
      cases u with
      | array items => cases hu
      | _ => rfl
    rw [renameDefault_of_array?_none hv, hone v hv, hone _ (array?_renameItem hv)]
    simp only [List.any_cons, List.any_nil, dropsEnv_renameItem]

theorem Attribute.dropsEnv_rename (ρ : Renaming) (model : String) (type : FieldType)
    (a : Attribute) :
    ((a.renameDeclared ρ model).renameReferences ρ model type).dropsEnv = a.dropsEnv := by
  by_cases hd : a.is "default" = true
  · rw [rename_of_default hd, dropsEnv, dropsEnv, mapArgs_is, firstArg?, firstArg?, mapArgs_args]
    cases a.args with
    | nil => rfl
    | cons first rest =>
      simp only [Argument.mapHead, List.head?_cons, Option.map_some, Option.any_some,
        Argument.mapValue_value, Value.any_dropsEnv_renameDefault]
  · simp only [dropsEnv, renameReferences_is, renameDeclared_is, hd, Bool.false_and]

theorem Schema.dropsEnv_rename (ρ : Renaming) (s : Schema) :
    (s.rename ρ).dropsEnv = s.dropsEnv := by
  have hmodel : ∀ m : Model, (m.rename ρ).fields.any (·.dropsEnv) = m.fields.any (·.dropsEnv) := by
    intro m
    simp only [Model.fields, Model.rename, List.filterMap_map, List.any_filterMap]
    refine congrArg (List.any m.members) (funext fun member => ?_)
    cases member with
    | field f =>
      show Field.dropsEnv ((f.renameDeclared ρ m.name.name).renameReferences ρ m.name.name) =
        f.dropsEnv
      simp only [Field.dropsEnv, Field.renameDeclared, Field.renameReferences,
        FieldType.scalar?_rename, List.any_map, Function.comp_def, Attribute.dropsEnv_rename]
    | _ => rfl
  simp only [dropsEnv, models, rename, List.filterMap_map, List.any_filterMap]
  refine congrArg (List.any s.declarations) (funext fun d => ?_)
  cases d with
  | model m => exact hmodel m
  | _ => rfl

theorem Value.dropsEnv_retextItem {w : FieldTexts} (h : w.isTime = true) (v : Value) :
    (v.retextItem w).dropsEnv = false := by
  by_cases hv : v.isLiteral = true
  · have hw := (isLiteral_retextItem w v).trans hv
    generalize v.retextItem w = u at hw
    cases u with
    | call name args => cases hw
    | _ => rfl
  · cases v with
    | call name args =>
      rw [retextItem_call, h, Bool.and_true]
      split
      · rfl
      next hname => simp only [dropsEnv, hname, Bool.false_and]
    | array items => rfl
    | path segments => rfl
    | _ => exact absurd rfl hv

theorem Value.any_dropsEnv_retextDefault {w : FieldTexts} (h : w.isTime = true) (v : Value) :
    (v.retextDefault w).defaults.any (·.dropsEnv) = false := by
  cases hv : v.array? with
  | some items =>
    obtain rfl := eq_array_of_array? hv
    simp only [retextDefault, defaults, List.any_map, Function.comp_def, dropsEnv_retextItem h,
      List.any_eq_false]
    exact fun _ _ => Bool.false_ne_true
  | none =>
    have hone : (v.retextItem w).defaults = [v.retextItem w] := by
      have harray := array?_retextItem (w := w) hv
      generalize v.retextItem w = u at harray
      cases u with
      | array items => cases harray
      | _ => rfl
    rw [retextDefault_of_array?_none hv, hone]
    simp only [List.any_cons, List.any_nil, dropsEnv_retextItem h, Bool.or_self]

theorem Attribute.dropsEnv_retextOnField {w : FieldTexts} (h : w.isTime = true) (a : Attribute) :
    (a.retextOnField w).dropsEnv = false := by
  by_cases hd : a.is "default" = true
  · rw [retextOnField_of_default hd, dropsEnv, firstArg?, mapArgs_args]
    cases a.args with
    | nil => simp only [Argument.mapHead, List.head?_nil, Option.map_none, Option.any_none, Bool.and_false]
    | cons first rest =>
      simp only [Argument.mapHead, List.head?_cons, Option.map_some, Option.any_some,
        Argument.mapValue_value, Value.any_dropsEnv_retextDefault h, Bool.and_false]
  · simp only [dropsEnv, retextOnField_is, hd, Bool.false_and]

/-- A schema whose texts are replaced drops nothing any more. -/
theorem Schema.dropsEnv_retext (T : Texts) (s : Schema) : (s.retext T).dropsEnv = false := by
  rw [dropsEnv, List.any_eq_false]
  intro m hm
  rw [Bool.not_eq_true, List.any_eq_false]
  intro f hf
  obtain ⟨d, hd, hmodel⟩ := List.mem_filterMap.mp hm
  obtain ⟨d₀, -, rfl⟩ := List.mem_map.mp hd
  cases d₀ with
  | model m₀ =>
    cases hmodel
    obtain ⟨member, hmember, hfield⟩ := List.mem_filterMap.mp hf
    obtain ⟨member₀, -, number, rfl⟩ :=
      exists_left_of_forall₂ (forall₂_numberAlong 0 m₀.members) hmember
    cases member₀ with
    | field f₀ =>
      cases hfield
      show ¬Field.dropsEnv (f₀.retext T m₀.name.name) = true
      rw [Field.dropsEnv, Field.retext, Bool.and_eq_true_iff]
      rintro ⟨htime, hany⟩
      obtain ⟨a, ha, hdrops⟩ := List.any_eq_true.mp hany
      obtain ⟨a₀, -, rfl⟩ := List.mem_map.mp ha
      rw [Attribute.dropsEnv_retextOnField htime] at hdrops
      cases hdrops
    | blockAttribute a => cases hfield
    | comment c => cases hfield
  | enum e => cases hmodel
  | config b => cases hmodel
  | comments b => cases hmodel

end Pseudonym

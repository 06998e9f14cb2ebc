/-
# Values that are counted on

With the global numbering the values of an enum start where those of the enum
before it stopped, and with the other one they start from zero. Everything
else is the same: whether a schema can be obfuscated and with which fault it
cannot, the names of models, fields, enums and relations, and the number of
environment variables. The result under the global numbering is the other
result with the values counted on, where they are declared and where they are
the default of a field.

Key definitions: `Schema.valuesBefore`, `countedOn`, `Schema.mapValues`.
-/
import Pseudonym.Proofs.Obfuscate.Faults
import Pseudonym.Proofs.Obfuscate.Reordering
import Pseudonym.Proofs.Obfuscate.Reread

namespace Pseudonym

/-! ### Counting on -/

/-- How many values the enums before the `i`-th one have. -/
def Schema.valuesBefore (s : Schema) (i : Nat) : Nat :=
  ((s.enums.take i).map (·.values.length)).sum

/-- The number that a text is, behind its stem. -/
def numberAfter? (stem text : String) : Option Nat :=
  let digits := text.toList.drop stem.toList.length
  if stem.toList.isPrefixOf text.toList && !digits.isEmpty && digits.all Char.isDigit then
    some (Nat.ofDigitChars 10 digits 0)
  else none

/-- The name of a value in an enum, counted on from the number that belongs to the enum. -/
def countedOn (first : Nat → Nat) (enum value : String) : String :=
  match numberAfter? "ENUM_" enum with
  | some i => (renumberAfter "VALUE_" (first i + ·) value).getD value
  | none => value

theorem numberAfter?_numbered (stem : String) (i : Nat) :
    numberAfter? stem (stem ++ toString i) = some i := by
  have hdigits : (toString i).toList = Nat.toDigits 10 i := Nat.toList_repr
  have hne : (toString i).toList.isEmpty = false := by
    rw [hdigits, List.isEmpty_eq_false_iff]
    exact Nat.toDigits_ne_nil
  have hall : (toString i).toList.all Char.isDigit = true :=
    List.all_eq_true.mpr fun c hc => isDigit_of_mem_toString hc
  have hstem : stem.toList.isPrefixOf (stem.toList ++ (toString i).toList) = true :=
    List.isPrefixOf_iff_prefix.mpr (List.prefix_append _ _)
  simp only [numberAfter?, String.toList_append, List.drop_left, hstem, hne, hall, Bool.not_false,
    Bool.and_self, ↓reduceIte]
  rw [hdigits, Nat.ofDigitChars_ten_toDigits]

theorem countedOn_enumName (first : Nat → Nat) (i j : Nat) :
    countedOn first (enumName i) (valueName j) = valueName (first i + j) := by
  have henum : numberAfter? "ENUM_" (enumName i) = some i := numberAfter?_numbered "ENUM_" i
  have hvalue := renumberAfter_numbered "VALUE_" (first i + ·) j "" endsNumber_nil
  rw [String.append_empty, String.append_empty] at hvalue
  rw [countedOn, henum]
  exact congrArg (Option.getD · _) hvalue

/-! ### Other names for values -/

/-- Changes the constants in a default value. -/
def Attribute.mapDefault (f : String → String) (a : Attribute) : Attribute :=
  if a.is "default" then a.mapArgs (Argument.mapHead (.renameDefault f)) else a

/-- Changes the constants that are defaults on a line of a model. They are values of the enum that
is the type of the field. -/
def ModelMember.mapValues (f : String → String → String) : ModelMember → ModelMember
  | .field x => .field { x with attributes := x.attributes.map (·.mapDefault (x.type.scope f)) }
  | .blockAttribute a => .blockAttribute a
  | .comment c => .comment c

/-- Changes the name of the value on a line of an enum. -/
def EnumMember.mapValues (f : String → String) : EnumMember → EnumMember
  | .value v => .value { v with name := v.name.rename (f v.name.name) }
  | .blockAttribute a => .blockAttribute a
  | .comment c => .comment c

/-- Changes the names of values in a declaration. -/
def Declaration.mapValues (f : String → String → String) : Declaration → Declaration
  | .model m => .model { m with members := m.members.map (·.mapValues f) }
  | .enum e => .enum { e with members := e.members.map (·.mapValues (f e.name.name)) }
  | .config b => .config b
  | .comments b => .comments b

/-- Changes the names of values, given enum by enum, and nothing else: where they are declared,
and where they are the defaults of fields. -/
def Schema.mapValues (f : String → String → String) (s : Schema) : Schema :=
  ⟨s.declarations.map (·.mapValues f)⟩

/-- The renaming of values only. -/
def Renaming.ofValues (f : String → String → String) : Renaming :=
  { Renaming.same with value := f }

section MapValues

variable (f : String → String → String)

theorem Attribute.renameReferences_ofValues (model : String) (type : FieldType) (a : Attribute) :
    a.renameReferences (.ofValues f) model type = a.mapDefault (type.scope f) := by
  by_cases hd : a.is "default" = true
  · rw [renameReferences, if_pos hd, mapDefault, if_pos hd]
    rfl
  · have hsame : a.renameReferences .same model type = a := a.renameReferences_same
    rw [renameReferences, if_neg hd] at hsame
    rw [renameReferences, if_neg hd, mapDefault, if_neg hd]
    exact hsame

theorem ModelMember.rename_ofValues (model : String) (member : ModelMember) :
    (member.renameDeclared (.ofValues f) model).renameReferences (.ofValues f) model =
      member.mapValues f := by
  cases member with
  | field x =>
    have hdeclared : ∀ a : Attribute, a.renameDeclared (.ofValues f) model = a := by
      intro a
      have hsame : a.renameDeclared .same model = a := a.renameDeclared_same
      exact hsame
    have htype : x.type.rename (Renaming.ofValues f).type = x.type := x.type.rename_id
    simp only [renameDeclared, renameReferences, Field.renameDeclared, Field.renameReferences,
      List.map_map, Function.comp_def, hdeclared, htype, Attribute.renameReferences_ofValues,
      mapValues]
    rfl
  | blockAttribute a =>
    have hattr : (a.attr.renameKeys (.ofValues f) model).renameLists (.ofValues f) model = a.attr := by
      have hsame : (a.attr.renameKeys .same model).renameLists .same model = a.attr := by
        rw [Attribute.renameLists_same, Attribute.renameKeys_same]
      exact hsame
    simp only [renameDeclared, renameReferences, hattr, mapValues]
  | comment c => rfl

/-- A renaming of values only changes the names of values only. -/
theorem Schema.rename_ofValues (s : Schema) : s.rename (.ofValues f) = s.mapValues f := by
  refine congrArg Schema.mk (List.map_congr_left fun d _ => ?_)
  cases d with
  | model m =>
    simp only [Declaration.rename, Model.rename, ModelMember.rename_ofValues, Declaration.mapValues]
    rfl
  | enum e =>
    have hmember : ∀ member : EnumMember, member.rename (.ofValues f) e.name.name =
        member.mapValues (f e.name.name) := by
      intro member
      cases member <;> rfl
    simp only [Declaration.rename, Enum.rename, hmember, Declaration.mapValues]
    rfl
  | config b => rfl
  | comments b => rfl

variable (T : Texts)

theorem Attribute.mapDefault_retextOnField (f : String → String) (w : FieldTexts) (a : Attribute) :
    (a.retextOnField w).mapDefault f = (a.mapDefault f).retextOnField w := by
  by_cases hd : a.is "default" = true
  · rw [mapDefault, if_pos (by simpa using hd), retextOnField_of_default hd, mapDefault, if_pos hd,
      retextOnField_of_default (by simpa using hd)]
    refine congrArg (Attribute.mk a.name · a.span) ?_
    rw [mapArgs_args, mapArgs_args]
    cases a.args with
    | nil => rfl
    | cons first rest =>
      simp only [Argument.mapHead, Argument.mapValue_mapValue, Value.renameDefault_retextDefault]
  · rw [mapDefault, if_neg (by simpa using hd), mapDefault, if_neg hd]

theorem ModelMember.retext_mapValues (model : String) (number : Nat) (member : ModelMember) :
    (member.mapValues f).retext T model number =
      ((member.retext T model number).1.mapValues f, (member.retext T model number).2) := by
  cases member with
  | field x =>
    simp only [mapValues, retext, Field.retext, List.map_map, Function.comp_def,
      Attribute.mapDefault_retextOnField]
  | blockAttribute a => rfl
  | comment c => rfl

/-- Values have their names changed before or after texts are replaced. -/
theorem Schema.retext_mapValues (s : Schema) :
    (s.mapValues f).retext T = (s.retext T).mapValues f := by
  simp only [retext, mapValues, List.map_map]
  refine congrArg Schema.mk (List.map_congr_left fun d _ => ?_)
  cases d with
  | model m =>
    simp only [Function.comp_apply, Declaration.mapValues, Declaration.retext, Model.retext,
      numberAlong_map (ModelMember.retext_mapValues f T m.name.name)]
  | enum e =>
    simp only [Function.comp_apply, Declaration.mapValues, Declaration.retext, List.map_map]
    refine congrArg (fun l => Declaration.enum { e with members := l })
      (List.map_congr_left fun member _ => ?_)
    cases member <;> rfl
  | config b => rfl
  | comments b => rfl

end MapValues

/-! ### The first number of an enum -/

/-- The number of the first value of the `i`-th enum. -/
def Schema.firstNumber (n : Numbering) (s : Schema) (i : Nat) : Nat :=
  match n with
  | .perEnum => 0
  | .global => s.valuesBefore i

/-- Every enum starts where the enums before it stopped, or from zero. -/
def Outline.Counted (n : Numbering) (o : Outline) : Prop :=
  ∀ i e, o.enums[i]? = some e → e.base = EnumOutline.used n (o.enums.take i)

theorem Outline.Counted.addDeclaration {n : Numbering} {o : Outline} (h : o.Counted n)
    (d : Declaration) : (o.addDeclaration n d).Counted n := by
  cases d with
  | enum e =>
    intro i e' he'
    simp only [Outline.addDeclaration] at he' ⊢
    rcases Nat.lt_trichotomy i o.enums.length with hi | rfl | hi
    · rw [List.getElem?_append_left hi] at he'
      rw [List.take_append_of_le_length (Nat.le_of_lt hi)]
      exact h i e' he'
    · rw [List.getElem?_concat_length] at he'
      cases he'
      rw [List.take_left]
      rfl
    · rw [List.getElem?_eq_none (by simp; omega)] at he'
      cases he'
  | model m => exact h
  | config b => exact h
  | comments b => exact h

namespace Schema

variable {n : Numbering} (s : Schema)

theorem counted_outline : (s.outline n).Counted n := by
  have hfold : ∀ (ds : List Declaration) (o : Outline), o.Counted n →
      (ds.foldl (Outline.addDeclaration n) o).Counted n := by
    intro ds
    induction ds with
    | nil => exact fun o ho => ho
    | cons d ds ih => exact fun o ho => ih _ (ho.addDeclaration d)
  exact hfold s.declarations .empty fun i e he => by cases he

/-- The enums of an outline are those of the schema, with their first numbers. -/
theorem enum_outline_at (i : Nat) :
    (s.outline n).enums[i]? = s.enums[i]?.map (·.outline (s.firstNumber n i)) := by
  have hnames := enums_outline (n := n) s
  have hget := congrArg (·[i]?) hnames
  simp only [List.getElem?_map] at hget
  cases he : (s.outline n).enums[i]? with
  | none =>
    rw [he, Option.map_none, eq_comm, Option.map_eq_none_iff] at hget
    rw [hget, Option.map_none]
  | some o =>
    rw [he, Option.map_some, eq_comm, Option.map_eq_some_iff] at hget
    obtain ⟨e, hs, heq⟩ := hget
    obtain ⟨hname, hvalues⟩ := Prod.mk.inj heq
    have hbase := counted_outline s i o he
    have hused : EnumOutline.used n ((s.outline n).enums.take i) = s.firstNumber n i := by
      cases n with
      | perEnum => rfl
      | global =>
        have htake := congrArg (fun l => ((l.take i).map (·.2.length)).sum) hnames
        simp only [← List.map_take, List.map_map] at htake
        simp only [EnumOutline.used, firstNumber, valuesBefore]
        refine htake.trans (congrArg List.sum (List.map_congr_left fun e _ => ?_))
        simp [Enum.valueNames]
    rw [hs, Option.map_some, Enum.outline, ← hused, ← hbase, hname, hvalues]

/-! ### The results of both numberings -/

/-- All names but those of values are the same under both numberings. -/
theorem newNames_numbering (n n' : Numbering) :
    (s.outline n).newNames = { (s.outline n').newNames with value := (s.outline n).newNames.value } := by
  have hmodels : (s.outline n).modelNames = (s.outline n').modelNames := by
    rw [modelNames_outline, modelNames_outline]
  have henums : (s.outline n).enumNames = (s.outline n').enumNames := by
    rw [enumNames_outline, enumNames_outline]
  simp only [Outline.newNames, Renaming.mk.injEq]
  refine ⟨?_, ?_, trivial, ?_⟩
  · funext x
    simp only [orMarked, Outline.type?, hmodels, henums]
  · simp only [hmodels, models_outline]
  · simp only [hmodels, models_outline]

variable {s}

theorem newNames_value_at (hs : s.typeNames.Nodup) {e : Enum} (he : e ∈ s.enums) {x : String}
    (hx : x ∈ e.valueNames) : (s.outline n).newNames.value e.name.name x =
      valueName (s.firstNumber n ((s.outline .perEnum).enumNames.idxOf e.name.name) +
        e.valueNames.idxOf x) := by
  have hnames : (s.outline n).enumNames = (s.outline .perEnum).enumNames := by
    rw [enumNames_outline, enumNames_outline]
  obtain ⟨o, ho, hvalues, hvalue⟩ := newNames_value (n := n) hs he hx
  rw [hnames, enum_outline_at] at ho
  obtain ⟨e', -, rfl⟩ := Option.map_eq_some_iff.mp ho
  rw [hvalue, EnumOutline.newValue, hvalues]
  rfl

/-- Counting on leads from the new names of one numbering to those of the other. -/
theorem leads_countedOn (hs : s.typeNames.Nodup) : s.Leads (s.outline .perEnum).newNames
    (.ofValues (countedOn s.valuesBefore)) (s.outline .global).newNames := by
  rw [s.newNames_numbering .global .perEnum]
  refine ⟨fun x _ hx hbuiltin => hx ?_, fun _ _ => rfl, fun _ _ _ _ => rfl, fun _ _ _ _ => rfl,
    fun e he x hx => ?_⟩
  · exact (s.outline .perEnum).newNames_faithful.builtin x hbuiltin
  · show countedOn s.valuesBefore ((s.outline .perEnum).newNames.type e.name.name)
      ((s.outline .perEnum).newNames.value e.name.name x) =
        (s.outline .global).newNames.value e.name.name x
    rw [newNames_type_enum hs he, newNames_value_at hs he hx, newNames_value_at hs he hx,
      countedOn_enumName]
    simp only [firstNumber, Nat.zero_add]

/-- **The result of the global numbering** is the other one with the values counted on. -/
theorem result_global (hs : s.Accepted) :
    s.result .global = (s.result .perEnum).mapValues (countedOn s.valuesBefore) := by
  have hrename := rename_rename hs (leads_countedOn hs.types)
  calc s.result .global
      = ((s.numberEnv 0).1.rename (s.outline .global).newNames).retext .neutral := rfl
    _ = (((s.numberEnv 0).1.rename (s.outline .perEnum).newNames).rename
          (.ofValues (countedOn s.valuesBefore))).retext .neutral := by
        rw [rename_numberEnv, rename_numberEnv, rename_numberEnv, hrename]
    _ = (s.result .perEnum).mapValues (countedOn s.valuesBefore) := by
        rw [rename_ofValues, retext_mapValues, result]

/-! ### The registries of both numberings -/

theorem value_registry (hs : s.Accepted) {env i j : Nat} {e : Enum} {v : EnumValue}
    (he : s.enums[i]? = some e) (hv : e.values[j]? = some v) :
    ((Outline.registry n { s.outline n with envVars := env }).values.get? (enumName i)).bind
      (·.names.get? v.name.name) = some (valueName (s.firstNumber n i + j)) := by
  have hat := s.enum_outline_at (n := n) i
  rw [he, Option.map_some] at hat
  have hname : e.valueNames[j]? = some v.name.name := by
    rw [Enum.valueNames, List.getElem?_map, hv, Option.map_some]
  have hnodup := hs.values e (List.mem_of_getElem? he)
  have hidx : e.valueNames.idxOf v.name.name = j := idxOf_of_getElem? hnodup hname
  rw [Outline.values_enumName]
  simp only [hat, Option.map_some, Option.bind_some, EnumOutline.scope]
  rw [Table.get?_numbered, Enum.outline, if_pos (List.mem_of_getElem? hname), hidx]

theorem enum_registry (hs : s.Accepted) {env i : Nat} {e : Enum} (he : s.enums[i]? = some e) :
    (Outline.registry n { s.outline n with envVars := env }).enums.get? e.name.name =
      some (enumName i) := by
  have hnodup : (s.enums.map (·.name.name)).Nodup := by
    have htypes := hs.types
    rw [s.typeNames_perm.nodup_iff, List.nodup_append] at htypes
    exact htypes.2.1
  have hname : (s.enums.map (·.name.name))[i]? = some e.name.name := by
    rw [List.getElem?_map, he, Option.map_some]
  have hnames : Outline.enumNames { s.outline n with envVars := env } =
      s.enums.map (·.name.name) := enumNames_outline s
  show (Table.numbered enumName _).get? e.name.name = _
  rw [Table.get?_numbered, hnames, if_pos (List.mem_of_getElem? hname),
    idxOf_of_getElem? hnodup hname]

end Schema

/-- The registries agree in everything but the numbers of values, and these are counted from zero
in every enum of the first one and through all enums in the second one. -/
structure Registry.CountsOn (s : Schema) (r r' : Registry) : Prop where
  models : r'.models = r.models
  fields : r'.fields = r.fields
  enums : r'.enums = r.enums
  relations : r'.relations = r.relations
  envVars : r'.envVars = r.envVars
  values : ∀ i e, s.enums[i]? = some e → r.enums.get? e.name.name = some (enumName i) ∧
    ∀ j v, e.values[j]? = some v →
      (r.values.get? (enumName i)).bind (·.names.get? v.name.name) = some (valueName j) ∧
      (r'.values.get? (enumName i)).bind (·.names.get? v.name.name) =
        some (valueName (s.valuesBefore i + j))

theorem Schema.countsOn_registry {s : Schema} (hs : s.Accepted) (env : Nat) :
    Registry.CountsOn s (Outline.registry .perEnum { s.outline .perEnum with envVars := env })
      (Outline.registry .global { s.outline .global with envVars := env }) where
  models := by
    simp only [Outline.registry, Outline.modelNames, models_outline]
  fields := by simp only [Outline.registry, models_outline]
  enums := by
    have hnames := fun n => enumNames_outline (n := n) s
    simp only [Outline.enumNames] at hnames
    simp only [Outline.registry, Outline.enumNames, hnames]
  relations := by simp only [Outline.registry, models_outline]
  envVars := rfl
  values i e he := by
    refine ⟨enum_registry hs he, fun j v hv => ⟨?_, value_registry hs he hv⟩⟩
    rw [value_registry hs he hv, firstNumber, Nat.zero_add]

/-- **The two numberings.** A text fails under both, with the same failure, or under none. Where it
succeeds, the registries agree in everything but the numbers of values, which are counted on under
the global numbering, and so does what is written: it is the same schema with the values counted
on. -/
theorem obfuscate_global (text : String) :
    (∃ e, obfuscate .perEnum text = .error e ∧ obfuscate .global text = .error e) ∨
    ∃ s t r r', Schema.parse text = .ok s ∧
      s.obfuscate .perEnum = .ok (t, r) ∧
      s.obfuscate .global = .ok (t.mapValues (countedOn s.valuesBefore), r') ∧
      obfuscate .perEnum text = .ok (t.render, r) ∧
      obfuscate .global text = .ok ((t.mapValues (countedOn s.valuesBefore)).render, r') ∧
      Registry.CountsOn s r r' := by
  cases hparse : Schema.parse text with
  | error e => exact .inl ⟨.text e, by rw [obfuscate, hparse]; rfl, by rw [obfuscate, hparse]; rfl⟩
  | ok s =>
    have htwin := Schema.twin_obfuscate (s := s) rfl .perEnum .global
    cases hper : s.obfuscate .perEnum with
    | error e =>
      rw [hper] at htwin
      cases hglobal : s.obfuscate .global with
      | ok p =>
        rw [hglobal] at htwin
        cases htwin
      | error e' =>
        rw [hglobal] at htwin
        cases htwin
        refine .inl ⟨.schema e, ?_, ?_⟩
        · rw [obfuscate, hparse]
          simp only [Except.mapError, bind, Except.bind, hper]
        · rw [obfuscate, hparse]
          simp only [Except.mapError, bind, Except.bind, hglobal]
    | ok p =>
      rw [hper] at htwin
      cases hglobal : s.obfuscate .global with
      | error e =>
        rw [hglobal] at htwin
        cases htwin
      | ok q =>
        obtain ⟨t, r⟩ := p
        obtain ⟨t', r'⟩ := q
        have hs := ((s.meets_obfuscate .perEnum).of_ok hper).1
        have ht := Schema.eq_result_of_ok hper
        have ht' := Schema.eq_result_of_ok hglobal
        obtain rfl : t' = t.mapValues (countedOn s.valuesBefore) := by
          rw [ht.1, ht'.1, Schema.result_global hs]
        refine .inr ⟨s, t, r, r', rfl, hper, hglobal, obfuscate_eq_ok.mpr ⟨s, t, hparse, hper, rfl⟩,
          obfuscate_eq_ok.mpr ⟨s, _, hparse, hglobal, rfl⟩, ?_⟩
        rw [ht.2, ht'.2]
        exact Schema.countsOn_registry hs _

end Pseudonym

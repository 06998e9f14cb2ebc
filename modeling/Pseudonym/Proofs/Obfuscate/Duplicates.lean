/-
# Names that are declared twice

An obfuscation that fails because of a duplicate has found one: two models or
enums, two fields or two relations of a model, or two values of an enum have
one name. There is one exception. The name of a unique key is kept with the
names of the fields, and a field of that name that comes later is taken for a
second one (`Model.Forestalls`). The other way round the key is known to be
that field.

So the order of the lines of a model matters, but in this way only: a schema
that can be obfuscated is, with the lines of its models in another order, found
to have a duplicate exactly if a key forestalls a field there.

Key definitions: `Schema.DeclaresTwice`, `Schema.Forestalls`, `Schema.Shuffled`.
-/
import Pseudonym.Proofs.Obfuscate.Bindings
import Pseudonym.Proofs.Obfuscate.FaultLines

namespace Pseudonym

variable {n : Numbering}

/-! ### Two declarations of one name -/

namespace Model

/-- Two fields, or two relations, have this name. -/
def DeclaresTwice (m : Model) : Noun → String → Prop
  | .field, name => 2 ≤ m.fieldNames.count name
  | .relation, name => 2 ≤ m.relationNames.count name
  | _, _ => False

/-- A unique key has the name of a field that comes later. -/
def Forestalls (m : Model) (name : String) : Prop :=
  ∃ before f after a, m.members = before ++ .field f :: after ∧ f.name.name = name ∧
    .blockAttribute a ∈ before ∧ name ∈ a.attr.keyNames

/-- What the attributes of a model have to be like to be declared. -/
def Shaped (m : Model) : Prop := ∀ member ∈ m.members, member.Shaped

end Model

/-- Two values have this name. -/
def Enum.DeclaresTwice (e : Enum) : Noun → String → Prop
  | .enumValue, name => 2 ≤ e.valueNames.count name
  | _, _ => False

namespace Schema

/-- A name that is declared twice in one scope: by models and enums, or inside one of them. -/
def DeclaresTwice (s : Schema) (noun : Noun) (name : String) : Prop :=
  ((noun = .model ∨ noun = .enum) ∧ 2 ≤ s.typeNames.count name) ∨
    (∃ m ∈ s.models, m.DeclaresTwice noun name) ∨ ∃ e ∈ s.enums, e.DeclaresTwice noun name

/-- In some model a unique key has the name of a field that comes later. -/
def Forestalls (s : Schema) (name : String) : Prop := ∃ m ∈ s.models, m.Forestalls name

end Schema

/-! ### What a duplicate tells -/

/-- The field that a line of a model declares. -/
def ModelMember.fieldName? (member : ModelMember) : Option String := member.field?.map (·.name.name)

namespace Model

variable {m : Model} {before after : List ModelMember} {member : ModelMember} {x : String}

theorem fieldNames_eq (m : Model) : m.fieldNames = m.members.filterMap (·.fieldName?) := by
  rw [fieldNames, fields, List.map_filterMap]
  rfl

/-- A field whose name is among the keys before it: of two fields, or of a key and a field. -/
theorem declaresTwice_or_forestalls (hl : m.members = before ++ member :: after)
    (hfield : member.fieldName? = some x) (hx : x ∈ before.flatMap (·.keyNames)) :
    m.DeclaresTwice .field x ∨ m.Forestalls x := by
  obtain ⟨other, hother, hx⟩ := List.mem_flatMap.mp hx
  cases other with
  | field g =>
    left
    show 2 ≤ m.fieldNames.count x
    rw [fieldNames_eq, List.filterMap_eq_flatMap_toList]
    refine two_le_count hl (List.mem_flatMap.mpr ⟨_, hother, ?_⟩) (Option.mem_toList.mpr hfield)
    rw [List.mem_singleton.mp hx]
    exact Option.mem_toList.mpr rfl
  | blockAttribute a =>
    right
    cases member with
    | field f =>
      cases hfield
      exact ⟨before, f, after, a, hl, rfl, hother, hx⟩
    | _ => cases hfield
  | comment c => cases hx

/-- A relation whose name is among those before it, on other lines or on its own. -/
theorem declaresTwice_relation {f : Field} {earlier later : List Attribute} {a : Attribute}
    (hl : m.members = before ++ .field f :: after) (hl' : f.attributes = earlier ++ a :: later)
    (ha : a.declaredRelation? = some x)
    (hx : x ∈ before.flatMap (·.relationNames) ++ earlier.filterMap (·.declaredRelation?)) :
    m.DeclaresTwice .relation x := by
  show 2 ≤ m.relationNames.count x
  have hmem : x ∈ f.relationNames :=
    List.mem_filterMap.mpr ⟨a, mem_of_split hl', ha⟩
  rcases List.mem_append.mp hx with hx | hx
  · exact two_le_count hl hx hmem
  · have htwice : 2 ≤ f.relationNames.count x := by
      rw [Field.relationNames, List.filterMap_eq_flatMap_toList]
      rw [List.filterMap_eq_flatMap_toList] at hx
      exact two_le_count hl' hx (Option.mem_toList.mpr ha)
    have hle := count_split_le (k := ModelMember.relationNames) hl [] x
    rw [List.nil_append, List.nil_append, List.count_append] at hle
    have hline : ModelMember.relationNames (.field f) = f.relationNames := rfl
    rw [hline] at hle
    exact Nat.le_trans htwice (Nat.le_trans (Nat.le_add_left _ _) hle)

/-- A duplicate on a line is one in the model, or a key forestalls a field. A fault of another kind
is that of an attribute without its shape. -/
theorem tells_of_misdeclares {cause : Cause} {part : Extent}
    (hl : m.members = before ++ member :: after)
    (h : member.Misdeclares (before.flatMap (·.keyNames)) (before.flatMap (·.relationNames))
      cause part) :
    cause.Tells (fun noun x => m.DeclaresTwice noun x ∨ noun = .field ∧ m.Forestalls x)
      ¬m.Shaped := by
  have hmember : member ∈ m.members := mem_of_split hl
  cases h with
  | field scope again =>
    exact (declaresTwice_or_forestalls hl rfl again).imp id fun h => ⟨rfl, h⟩
  | onField split h =>
    cases h with
    | relation scope declares again => exact .inl (declaresTwice_relation hl split declares again)
    | unique defect hu hshape =>
      exact fun hshaped => hshape (hshaped _ hmember _ (mem_of_split split) hu)
  | onModel defect hu hshape => exact fun hshaped => hshape (hshaped _ hmember hu)

end Model

/-! ### Schemas -/

namespace Schema

variable {s : Schema}

/-- A duplicate that is found in a schema is one, or a key forestalls a field. A fault of another
kind is that of an attribute without its shape. -/
theorem Misdeclares.tells {cause : Cause} {part : Extent} (h : s.Misdeclares cause part) :
    cause.Tells (fun noun x => s.DeclaresTwice noun x ∨ noun = .field ∧ s.Forestalls x)
      (∃ m ∈ s.models, ¬m.Shaped) := by
  obtain ⟨before, d, after, hl, h⟩ := h
  have hd : d ∈ s.declarations := mem_of_split hl
  have htype : ∀ {x}, x ∈ d.typeName?.toList → x ∈ before.filterMap (·.typeName?) →
      2 ≤ s.typeNames.count x := by
    intro x hx hbefore
    rw [typeNames, List.filterMap_eq_flatMap_toList]
    rw [List.filterMap_eq_flatMap_toList] at hbefore
    exact two_le_count hl hbefore hx
  cases h with
  | model again => exact .inl (.inl ⟨.inl rfl, htype (Option.mem_toList.mpr rfl) again⟩)
  | enum again => exact .inl (.inl ⟨.inr rfl, htype (Option.mem_toList.mpr rfl) again⟩)
  | @member m _ _ _ _ _ split h =>
    have hm := mem_models.mpr hd
    refine (Model.tells_of_misdeclares split h).mono ?_ fun hshape => ⟨m, hm, hshape⟩
    rintro noun x (htwice | ⟨rfl, hforestalls⟩)
    · exact .inl (.inr (.inl ⟨m, hm, htwice⟩))
    · exact .inr ⟨rfl, m, hm, hforestalls⟩
  | @value e before after v scope split again =>
    refine .inl (.inr (.inr ⟨e, mem_enums.mpr hd, ?_⟩))
    show 2 ≤ e.valueNames.count v.name.name
    rw [Enum.valueNames_eq, List.filterMap_eq_flatMap_toList]
    rw [List.filterMap_eq_flatMap_toList] at again
    exact two_le_count split again (Option.mem_toList.mpr rfl)

/-- Where references are resolved, no name is found to be declared twice. -/
theorem Misrefers.tells {cause : Cause} {part : Extent} (h : s.Misrefers cause part) :
    cause.Tells (fun _ _ => False) True := by
  obtain ⟨m, -, member, -, h⟩ := h
  cases h with
  | type htype missing => exact trivial
  | onField ha hcause h => exact hcause.tells _ trivial
  | onModel hcause h => exact hcause.tells _ trivial

/-- The obfuscation fails because of a name that is declared twice. -/
def FindsDuplicate (n : Numbering) (s : Schema) (noun : Noun) (name : String) : Prop :=
  ∃ scope line, s.obfuscate n = .error ⟨.duplicate noun name scope, line⟩

theorem findsDuplicate_of_cause {noun : Noun} {name : String} {scope : Option String} {e : Fault}
    (h : s.obfuscate n = .error e) (hcause : e.cause = .duplicate noun name scope) :
    s.FindsDuplicate n noun name := by
  refine ⟨scope, e.line, ?_⟩
  rw [h, ← hcause]

theorem declaresTwice_or_forestalls {noun : Noun} {name : String} (h : s.FindsDuplicate n noun name) :
    s.DeclaresTwice noun name ∨ noun = .field ∧ s.Forestalls name := by
  obtain ⟨scope, line, h⟩ := h
  obtain ⟨part, hpart | hpart, -⟩ := s.fails_obfuscate_at n _ h
  · exact hpart.tells
  · exact hpart.tells.elim

/-! ### Lines in another order -/

theorem Distinct.not_declaresTwice (h : s.Distinct) (noun : Noun) (name : String) :
    ¬s.DeclaresTwice noun name := by
  have honce : ∀ {names : List String}, names.Nodup → ¬2 ≤ names.count name := by
    intro names hnodup
    have hle := List.nodup_iff_count_le_one.mp hnodup name
    omega
  rintro (⟨-, htwice⟩ | ⟨m, hm, htwice⟩ | ⟨e, he, htwice⟩)
  · exact honce h.types htwice
  · cases noun with
    | field => exact honce (h.fields m hm) htwice
    | relation => exact honce (h.relations m hm) htwice
    | _ => exact htwice
  · cases noun with
    | enumValue => exact honce (h.values e he) htwice
    | _ => exact htwice

theorem Accepted.distinct (h : s.Accepted) : s.Distinct :=
  ⟨h.types, fun m hm => (h.fields m hm).nodup, h.relations, h.values⟩

end Schema

/-- The same declaration, with the lines of a model in another order. -/
inductive Declaration.Shuffled : Declaration → Declaration → Prop
  | model {m m' : Model} (name : m'.name = m.name) (members : m.members.Perm m'.members) :
    Shuffled (.model m) (.model m')
  | same (d : Declaration) : Shuffled d d

namespace Schema

variable {s s' : Schema}

/-- The same declarations, with the lines of the models in another order. -/
def Shuffled (s s' : Schema) : Prop :=
  List.Forall₂ Declaration.Shuffled s.declarations s'.declarations

theorem Shuffled.typeNames (h : s.Shuffled s') : s'.typeNames = s.typeNames := by
  refine filterMap_eq_of_forall₂ (h.imp fun d d' hd => ?_)
  cases hd with
  | model name members => exact congrArg (fun i : Ident => some i.name) name
  | same d => rfl

theorem Shuffled.exists_model (h : s.Shuffled s') {m' : Model} (hm' : m' ∈ s'.models) :
    ∃ m ∈ s.models, m.members.Perm m'.members := by
  obtain ⟨d, hd, hshuffled⟩ := exists_left_of_forall₂ h (mem_models.mp hm')
  cases hshuffled with
  | model name members => exact ⟨_, mem_models.mpr hd, members⟩
  | same d => exact ⟨m', mem_models.mpr hd, .rfl⟩

theorem Shuffled.mem_enums (h : s.Shuffled s') {e : Enum} (he : e ∈ s'.enums) : e ∈ s.enums := by
  obtain ⟨d, hd, hshuffled⟩ := exists_left_of_forall₂ h (Schema.mem_enums.mp he)
  cases hshuffled with
  | same d => exact Schema.mem_enums.mpr hd

theorem Shuffled.distinct (h : s.Shuffled s') (hs : s.Distinct) : s'.Distinct where
  types := h.typeNames ▸ hs.types
  fields m' hm' := by
    obtain ⟨m, hm, hperm⟩ := h.exists_model hm'
    exact ((hperm.filterMap _).map _).nodup_iff.mp (hs.fields m hm)
  relations m' hm' := by
    obtain ⟨m, hm, hperm⟩ := h.exists_model hm'
    exact (hperm.flatMap_right _).nodup_iff.mp (hs.relations m hm)
  values e he := hs.values e (h.mem_enums he)

theorem not_fieldsFresh_of_forestalls {m : Model} {name : String} (h : m.Forestalls name) :
    ¬m.FieldsFresh := by
  obtain ⟨before, f, after, a, hl, rfl, ha, hname⟩ := h
  exact fun hfresh => hfresh before f after hl (List.mem_flatMap.mpr ⟨_, ha, hname⟩)

/-- If the attributes have their shape, a field that is forestalled is found to be a duplicate. -/
theorem exists_findsDuplicate (hshaped : ∀ m ∈ s.models, m.Shaped) {name : String}
    (h : s.Forestalls name) : ∃ noun name, s.FindsDuplicate n noun name := by
  obtain ⟨m, hm, hforestalls⟩ := h
  have hnot : ¬(s.typeNames.Nodup ∧ ∀ d ∈ s.declarations, d.Declarable) := by
    rintro ⟨-, hall⟩
    have hdeclarable : m.Declarable := hall _ (mem_models.mp hm)
    exact not_fieldsFresh_of_forestalls hforestalls hdeclarable.fields
  obtain ⟨e, he⟩ := (s.meets_declare n).2 hnot
  have herror : s.obfuscate n = .error e := by
    rw [obfuscate, he]
    rfl
  obtain ⟨part, hpart, -⟩ := s.fails_declare_at n e he
  have htells := hpart.tells
  cases hcause : e.cause with
  | duplicate noun name scope =>
    exact ⟨noun, name, findsDuplicate_of_cause herror hcause⟩
  | _ =>
    rw [hcause] at htells
    obtain ⟨m', hm', hnot'⟩ := htells
    exact absurd (hshaped m' hm') hnot'

/-- **Duplicates.** A duplicate that an obfuscation fails with is a name that is declared twice in
its scope, or the name of a field that a unique key has before it. Therefore, if the lines of the
models are put in another order, a schema that can be obfuscated becomes one with a duplicate
exactly if some key comes before the field of its name. -/
theorem duplicate_obfuscate (n : Numbering) (s : Schema) :
    (∀ noun name, s.FindsDuplicate n noun name →
      s.DeclaresTwice noun name ∨ noun = .field ∧ s.Forestalls name) ∧
    ∀ s', (∃ result, s.obfuscate n = .ok result) → s.Shuffled s' →
      ((∃ noun name, s'.FindsDuplicate n noun name) ↔ ∃ name, s'.Forestalls name) := by
  refine ⟨fun _ _ => declaresTwice_or_forestalls, fun s' ⟨result, hok⟩ hshuffled => ?_⟩
  have haccepted : s.Accepted := ((s.meets_obfuscate n).of_ok hok).1
  constructor
  · rintro ⟨noun, name, h⟩
    have hdistinct := hshuffled.distinct haccepted.distinct
    rcases declaresTwice_or_forestalls h with htwice | ⟨-, hforestalls⟩
    · exact absurd htwice (hdistinct.not_declaresTwice noun name)
    · exact ⟨name, hforestalls⟩
  · rintro ⟨name, h⟩
    refine exists_findsDuplicate (fun m' hm' member hmember => ?_) h
    obtain ⟨m, hm, hperm⟩ := hshuffled.exists_model hm'
    have hdeclarable : m.Declarable := (s.accepted_iff.mpr haccepted).1.2 _ (mem_models.mp hm)
    exact hdeclarable.shaped member (hperm.mem_iff.mpr hmember)

/-- A model with a unique key that has the name of a field, before the fields or behind them. -/
def slugged (keyFirst : Bool) : Schema :=
  let here : Span := ⟨0, 0, 1⟩
  let field (name : String) (type : ScalarType) : ModelMember :=
    .field ⟨⟨name, here⟩, .scalar type, .required, [], none, here⟩
  let key : ModelMember := .blockAttribute ⟨⟨⟨"unique", here⟩,
    [⟨none, .array [.path ["id"]], here⟩, ⟨some ⟨"name", here⟩, .string "slug", here⟩], here⟩, none⟩
  let fields := [field "id" .int, field "slug" .string]
  ⟨[.model ⟨⟨"Post", here⟩, if keyFirst then key :: fields else fields ++ [key], here⟩]⟩

theorem duplicate_obfuscate_slugged :
    (∃ result, (slugged false).obfuscate .perEnum = .ok result) ∧
    (slugged false).Shuffled (slugged true) ∧
    ∃ noun name, (slugged true).FindsDuplicate .perEnum noun name ∧
      ((slugged true).DeclaresTwice noun name ∨ noun = .field ∧ (slugged true).Forestalls name) := by
  obtain ⟨result, hok, -⟩ := exists_ok (x := (slugged false).obfuscate .perEnum)
    (P := fun _ => True) (by decide +kernel)
  have hshuffled : (slugged false).Shuffled (slugged true) :=
    .cons (.model rfl (List.perm_append_singleton _ _)) .nil
  have hforestalls : (slugged true).Forestalls "slug" := by
    refine ⟨_, List.mem_singleton_self _, [_, _], _, [], _, rfl, rfl, List.mem_cons_self, ?_⟩
    decide
  obtain ⟨noun, name, h⟩ :=
    ((duplicate_obfuscate .perEnum (slugged false)).2 _ ⟨result, hok⟩ hshuffled).mpr
      ⟨"slug", hforestalls⟩
  exact ⟨⟨result, hok⟩, hshuffled, noun, name, h,
    (duplicate_obfuscate .perEnum (slugged true)).1 noun name h⟩

/-- A text in which a unique key comes before the field of its name. -/
def keyFirst : String :=
  "model Post \x7b\n  @@unique([id], name: \"slug\")\n  id Int\n  slug String\n\x7d\n"

/-- The field is taken for a duplicate, and no name is declared twice. -/
theorem duplicate_keyFirst : ∃ s, Schema.parse keyFirst = .ok s ∧
    s.FindsDuplicate .perEnum .field "slug" ∧ ∀ noun name, ¬s.DeclaresTwice noun name := by
  have hparse : (Schema.parse keyFirst).toOption.any (fun s => decide
      ((s.typeNames.Nodup ∧ (∀ m ∈ s.models, m.fieldNames.Nodup ∧ m.relationNames.Nodup) ∧
        s.enums = []) ∧
      (match s.obfuscate .perEnum with
        | .error e => some e.cause
        | .ok _ => none) = some (.duplicate .field "slug" (some "model_name_0")))) = true := by
    decide +kernel
  obtain ⟨s, hs, ⟨htypes, hmodels, henums⟩, hcause⟩ := exists_ok hparse
  have hdistinct : s.Distinct :=
    ⟨htypes, fun m hm => (hmodels m hm).1, fun m hm => (hmodels m hm).2, by simp [henums]⟩
  refine ⟨s, hs, ?_, hdistinct.not_declaresTwice⟩
  cases h : s.obfuscate .perEnum with
  | ok result =>
    rw [h] at hcause
    cases hcause
  | error e =>
    rw [h] at hcause
    exact findsDuplicate_of_cause h (Option.some.inj hcause)

end Schema

end Pseudonym

/-
# Lists of fields in attributes of models

An attribute of a model can list fields in any of its arguments. Which lists
an obfuscation resolves depends on the name of the attribute and on the
argument: all lists of `@@unique`, the first argument of `@@index` and `@@id`,
and no others. In a list that is resolved, a field has the new name of that
field; in all others its old name stays.

A line of a model is treated by itself, so both are read off the result line by
line.

Key definitions: `Attribute.item?`, `Attribute.listsFields`, `Schema.line?`.
-/
import Pseudonym.Proofs.Obfuscate.Result

namespace Pseudonym

/-! ### Items of lists -/

/-- An item of a list. -/
def Value.item? (l : Nat) : Value → Option Value
  | .array items => items[l]?
  | _ => none

namespace Attribute

/-- An item of the list in an argument. -/
def item? (a : Attribute) (k l : Nat) : Option Value := a.args[k]?.bind (·.value.item? l)

/-- Whether the fields that this argument lists are resolved. -/
def listsFields (a : Attribute) (k : Nat) : Bool :=
  if a.is "index" || a.is "id" then k == 0 else a.is "unique"

end Attribute

namespace Value

variable {l : Nat} {v : Value} {segments : List String}

@[simp] theorem item?_mapString (f : String → String) (v : Value) :
    (v.mapString f).item? l = v.item? l := by
  cases v <;> rfl

@[simp] theorem item?_renameItems (f : String → String) (v : Value) :
    (v.renameItems f).item? l = (v.item? l).map (renameItem f) := by
  cases v with
  | array items => exact List.getElem?_map
  | _ => rfl

theorem getElem?_numberEnvEach : ∀ (n : Nat) (items : List Value) (l : Nat),
    items[l]? = some (.path segments) → (numberEnvEach n items).1[l]? = some (.path segments)
  | _, [], _, h => by cases h
  | _, v :: _, 0, h => by
    cases h
    rfl
  | n, v :: items, l + 1, h => getElem?_numberEnvEach (v.numberEnv n).2 items l h

/-- There are no environment variables in a path. -/
theorem item?_numberEnv (n : Nat) (h : v.item? l = some (.path segments)) :
    (v.numberEnv n).1.item? l = some (.path segments) := by
  cases v with
  | array items => exact getElem?_numberEnvEach n items l h
  | _ => cases h

end Value

theorem Argument.getElem?_numberEnvEach : ∀ (n : Nat) (args : List Argument) (k : Nat)
    {arg : Argument}, args[k]? = some arg →
    ∃ e, (numberEnvEach n args).1[k]? = some (arg.mapValue fun v => (v.numberEnv e).1)
  | _, [], _, _, h => by cases h
  | n, a :: args, 0, _, h => by
    cases h
    exact ⟨n, by rw [numberEnvEach_cons]; rfl⟩
  | n, a :: args, k + 1, _, h => by
    rw [numberEnvEach_cons]
    exact getElem?_numberEnvEach (a.value.numberEnv n).2 args k h

namespace Attribute

variable {a : Attribute} {k l : Nat} {segments : List String} {ρ : Renaming} {model : String}

theorem item?_eq_some {v : Value} :
    a.item? k l = some v ↔ ∃ arg, a.args[k]? = some arg ∧ arg.value.item? l = some v :=
  Option.bind_eq_some_iff

theorem item?_numberEnv (n : Nat) (h : a.item? k l = some (.path segments)) :
    (a.numberEnv n).1.item? k l = some (.path segments) := by
  obtain ⟨arg, harg, hitem⟩ := item?_eq_some.mp h
  obtain ⟨e, he⟩ := Argument.getElem?_numberEnvEach n a.args k harg
  exact item?_eq_some.mpr ⟨_, he, Value.item?_numberEnv e hitem⟩

@[simp] theorem item?_renameKeys : (a.renameKeys ρ model).item? k l = a.item? k l := by
  unfold renameKeys
  split
  · rw [item?, mapArgs_args, List.getElem?_map, Option.bind_map, item?]
    congr 1
    funext arg
    show (if arg.namesKey then _ else _ : Argument).value.item? l = _
    split
    · exact Value.item?_mapString _ _
    · rfl
  · rfl

@[simp] theorem item?_retextIndex (text : String) : (a.retextIndex text).item? k l = a.item? k l := by
  unfold retextIndex
  split
  · rw [item?, mapArgs_args, item?]
    match a.args, k with
    | [], _ => rfl
    | [_], _ => rfl
    | _ :: _ :: _, 0 => rfl
    | _ :: second :: _, 1 =>
      show (if second.isNamed "map" then _ else _ : Argument).value.item? l = _
      split
      · exact Value.item?_mapString _ _
      · rfl
    | _ :: _ :: _, _ + 2 => rfl
  · rfl

@[simp] theorem listsFields_renameKeys : (a.renameKeys ρ model).listsFields k = a.listsFields k := by
  simp only [listsFields, renameKeys_is]

/-- The fields in a list are renamed if it is one of those that are resolved. -/
theorem item?_renameLists : (a.renameLists ρ model).item? k l =
    if a.listsFields k then (a.item? k l).map (Value.renameItem (ρ.field model))
    else a.item? k l := by
  unfold renameLists listsFields
  by_cases hfirst : (a.is "index" || a.is "id") = true
  · rw [if_pos hfirst, if_pos hfirst, item?, mapArgs_args, item?]
    match a.args, k with
    | [], _ => simp [Argument.mapHead]
    | arg :: _, 0 => exact Value.item?_renameItems _ _
    | _ :: _, _ + 1 => rfl
  · rw [if_neg hfirst, if_neg hfirst]
    by_cases hall : a.is "unique" = true
    · rw [if_pos hall, if_pos hall, item?, mapArgs_args, List.getElem?_map, Option.bind_map, item?,
        Option.map_bind]
      congr 1
      funext arg
      exact Value.item?_renameItems _ _
    · rw [if_neg hall, if_neg hall]

end Attribute

/-! ### Lines of a schema -/

namespace ModelMember

/-- What an obfuscation makes of a line of a model, if `e` variables and `i` indexes come before
it. -/
def result (ρ : Renaming) (model : String) (e i : Nat) (member : ModelMember) : ModelMember :=
  ((((member.numberEnv e).1.renameDeclared ρ model).renameReferences ρ model).retext .neutral
    (ρ.type model) i).1

variable {member : ModelMember} (ρ : Renaming) (model : String) (e i : Nat)

theorem field?_result {f : Field} (h : member.field? = some f) :
    ∃ f', (member.result ρ model e i).field? = some f' ∧ f'.name.name = ρ.field model f.name.name := by
  cases member with
  | field f =>
    cases h
    exact ⟨_, rfl, rfl⟩
  | _ => cases h

theorem attribute?_result {a : Attribute} (h : member.attribute? = some a) :
    ∃ text, (member.result ρ model e i).attribute? =
      some ((((a.numberEnv e).1.renameKeys ρ model).renameLists ρ model).retextIndex text) := by
  cases member with
  | blockAttribute b =>
    cases h
    exact ⟨_, rfl⟩
  | _ => cases h

end ModelMember

theorem exists_getElem?_numberAlong {α γ : Type} {f : Nat → α → γ × Nat} {l : List α} {a : α} {i : Nat}
    (n : Nat) (h : l[i]? = some a) : ∃ k, (numberAlong f n l).1[i]? = some (f k a).1 := by
  rw [getElem?_numberAlong, h]
  exact ⟨_, rfl⟩

namespace Schema

variable {n : Numbering} {s t : Schema} {r : Registry} {i j k l : Nat} {member : ModelMember}

/-- A line of a model, in a declaration that is one. -/
def line? (s : Schema) (i j : Nat) : Option ModelMember :=
  match s.declarations[i]? with
  | some (.model m) => m.members[j]?
  | _ => none

theorem line?_eq_some : s.line? i j = some member ↔
    ∃ m, s.declarations[i]? = some (.model m) ∧ m.members[j]? = some member := by
  unfold line?
  constructor
  · intro h
    split at h
    · exact ⟨_, ‹_›, h⟩
    · cases h
  · rintro ⟨m, hm, h⟩
    rw [hm]
    exact h

/-- In the result the lines are where they were, and each is treated by itself. -/
theorem line?_result {m : Model} (hm : s.declarations[i]? = some (.model m))
    (hmember : m.members[j]? = some member) :
    ∃ e number, (s.result n).line? i j =
      some (member.result (s.outline n).newNames m.name.name e number) := by
  obtain ⟨e, he⟩ := exists_getElem?_numberAlong (f := Declaration.numberEnv) 0 hm
  have hdeclaration : (s.result n).declarations[i]? = some (.model (Model.retext .neutral
      (Model.rename (s.outline n).newNames
        { m with members := (numberAlong ModelMember.numberEnv e m.members).1 }))) := by
    simp only [result, retext, rename, numberEnv, Prod.map, List.getElem?_map, he, Option.map_some]
    rfl
  obtain ⟨e', he'⟩ := exists_getElem?_numberAlong (f := ModelMember.numberEnv) e hmember
  obtain ⟨number, hnumber⟩ := exists_getElem?_numberAlong
    (f := ModelMember.retext .neutral ((s.outline n).newNames.type m.name.name)) 0
    (List.getElem?_map.trans (congrArg (Option.map fun member : ModelMember =>
      (member.renameDeclared (s.outline n).newNames m.name.name).renameReferences
        (s.outline n).newNames m.name.name) he'))
  exact ⟨e', number, line?_eq_some.mpr ⟨_, hdeclaration, hnumber⟩⟩

/-- **Fields in the lists of attributes.** Where an attribute of a model lists a field of this
model, the result lists the field under its new name, at the same place, if the list is one that
is resolved. In all other lists the old name stays. -/
theorem item?_obfuscate (h : s.obfuscate n = .ok (t, r)) {f : Field} {a : Attribute} {p : Nat}
    (hf : (s.line? i p).bind (·.field?) = some f)
    (ha : (s.line? i j).bind (·.attribute?) = some a)
    (hitem : a.item? k l = some (.path [f.name.name])) :
    ∃ f' b, (t.line? i p).bind (·.field?) = some f' ∧
      (t.line? i j).bind (·.attribute?) = some b ∧
      b.item? k l = some (.path [if a.listsFields k then f'.name.name else f.name.name]) := by
  obtain ⟨rfl, -⟩ := eq_result_of_ok h
  obtain ⟨line, hline, hf⟩ := Option.bind_eq_some_iff.mp hf
  obtain ⟨line', hline', ha⟩ := Option.bind_eq_some_iff.mp ha
  obtain ⟨m, hm, hline⟩ := line?_eq_some.mp hline
  obtain ⟨m', hm', hline'⟩ := line?_eq_some.mp hline'
  obtain rfl : m = m' := by
    rw [hm] at hm'
    cases hm'
    rfl
  obtain ⟨e, number, hresult⟩ := line?_result (n := n) hm hline
  obtain ⟨e', number', hresult'⟩ := line?_result (n := n) hm hline'
  obtain ⟨f', hf', hname⟩ :=
    ModelMember.field?_result (s.outline n).newNames m.name.name e number hf
  obtain ⟨text, hb⟩ :=
    ModelMember.attribute?_result (s.outline n).newNames m.name.name e' number' ha
  refine ⟨f', _, by rw [hresult]; exact hf', by rw [hresult']; exact hb, ?_⟩
  rw [Attribute.item?_retextIndex, Attribute.item?_renameLists, Attribute.item?_renameKeys,
    Attribute.item?_numberEnv e' hitem, Attribute.listsFields_renameKeys, hname]
  show (if a.listsFields k = true then _ else _) = _
  split <;> rfl

/-- A model that lists one of its fields in a unique key, in the first argument of `@@id` and in
the one after it, and for a full-text search. -/
def listing : Schema :=
  let here : Span := ⟨0, 0, 1⟩
  let title : Argument := ⟨none, .array [.path ["title"]], here⟩
  let line (name : String) (args : List Argument) : ModelMember :=
    .blockAttribute ⟨⟨⟨name, here⟩, args, here⟩, none⟩
  ⟨[.model ⟨⟨"Post", here⟩, [
      .field ⟨⟨"id", here⟩, .scalar .int, .required, [], none, here⟩,
      .field ⟨⟨"title", here⟩, .scalar .string, .required, [], none, here⟩,
      line "unique" [title], line "id" [title, title], line "fulltext" [title]], here⟩]⟩

theorem item?_obfuscate_listing : ∃ t r f', listing.obfuscate .perEnum = .ok (t, r) ∧
    (t.line? 0 1).bind (·.field?) = some f' ∧
    (∃ b, (t.line? 0 2).bind (·.attribute?) = some b ∧ b.item? 0 0 = some (.path [f'.name.name])) ∧
    (∃ b, (t.line? 0 3).bind (·.attribute?) = some b ∧ b.item? 1 0 = some (.path ["title"])) ∧
    ∃ b, (t.line? 0 4).bind (·.attribute?) = some b ∧ b.item? 0 0 = some (.path ["title"]) := by
  have hok : (listing.obfuscate .perEnum).toBool = true := by decide +kernel
  cases h : listing.obfuscate .perEnum with
  | error e =>
    rw [h] at hok
    cases hok
  | ok result =>
    obtain ⟨f', b, hf', hb, hunique⟩ := item?_obfuscate h (i := 0) (j := 2) (k := 0) (l := 0)
      (p := 1) rfl rfl rfl
    obtain ⟨_, c, -, hc, hid⟩ := item?_obfuscate h (i := 0) (j := 3) (k := 1) (l := 0)
      (p := 1) rfl rfl rfl
    obtain ⟨_, d, -, hd, hsearch⟩ := item?_obfuscate h (i := 0) (j := 4) (k := 0) (l := 0)
      (p := 1) rfl rfl rfl
    exact ⟨result.1, result.2, f', rfl, hf', ⟨b, hb, hunique⟩, ⟨c, hc, hid⟩, d, hd, hsearch⟩

/-- A text with a list of fields that is not resolved. -/
def searched : String :=
  "model Post \x7b\n  id Int @id\n  title String\n\n  @@fulltext([title])\n\x7d\n"

/-- The list still has the old name of a field whose new name is another one. -/
theorem obfuscate_searched : ∃ s, Schema.parse searched = .ok s ∧
    ((s.line? 0 1).bind (·.field?)).map (·.name.name) = some "title" ∧
    (((s.line? 0 2).bind (·.attribute?)).bind (·.item? 0 0)).bind (·.name?) = some "title" ∧
    ∃ result, s.obfuscate .perEnum = .ok result ∧
      ((result.1.line? 0 1).bind (·.field?)).map (·.name.name) = some "field_1" ∧
      (((result.1.line? 0 2).bind (·.attribute?)).bind (·.item? 0 0)).bind (·.name?) =
        some "title" := by
  have hparse : (Schema.parse searched).toOption.any (fun s => decide
      (((s.line? 0 1).bind (·.field?)).map (·.name.name) = some "title" ∧
      (((s.line? 0 2).bind (·.attribute?)).bind (·.item? 0 0)).bind (·.name?) = some "title" ∧
      (s.obfuscate .perEnum).toOption.any (fun result => decide
        (((result.1.line? 0 1).bind (·.field?)).map (·.name.name) = some "field_1" ∧
        (((result.1.line? 0 2).bind (·.attribute?)).bind (·.item? 0 0)).bind (·.name?) =
          some "title")) = true)) = true := by decide +kernel
  obtain ⟨s, hs, hfield, hitem, hresult⟩ := exists_ok hparse
  exact ⟨s, hs, hfield, hitem, exists_ok hresult⟩

end Schema

end Pseudonym

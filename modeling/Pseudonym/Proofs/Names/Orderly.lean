/-
# The registries that calls lead to are orderly

Whatever is called on a registry that starts empty, and whether the calls
fail or not, its tables stay in step: the models and the enums share no name,
their new names are numbered in the order of the entries, and the tables of
their fields and values stand under just these new names; the names within
each table are numbered in order; and a table of relations is there only for
a model that has some.

No two relations share a new name, of whatever models they are: a model's new
name ends in a number, which the underscore after it closes. Where the values
are numbered through all enums, no two of them share a new name either.

Key definitions: `Registry.Orderly`.
-/
import Pseudonym.Proofs.Names.Calls
import Pseudonym.Proofs.Names.Digits

namespace Pseudonym

namespace Registry

/-- What all scopes of a kind hold, one after the other. -/
def pooled (t : Table Scope) : List String := t.contents.flatMap (·.names.contents)

/-- The tables and the counters of a registry are in step. -/
structure Orderly (r : Registry) : Prop where
  /-- No name is that of two models, of two enums, or of a model and an enum. -/
  types : (r.models.names ++ r.enums.names).Nodup
  models : r.models.contents = (List.range r.models.size).map modelName
  fields : r.fields.names = r.models.contents
  enums : r.enums.contents = (List.range r.enums.size).map enumName
  values : r.values.names = r.enums.contents
  relations : r.relations.names.Nodup
  fieldScopes : ∀ p ∈ r.fields.entries, p.2.Counted fieldName
  relationScopes : ∀ p ∈ r.relations.entries,
    p.1 ∈ r.models.contents ∧ p.2.names.size ≠ 0 ∧ p.2.Counted (relationName p.1)
  valueScopes : ∀ p ∈ r.values.entries, p.2.names.names.Nodup
  /-- Every enum counts its values, and nothing is counted through all enums. -/
  perEnum : r.numbering = .perEnum →
    r.globalValues = 0 ∧ ∀ p ∈ r.values.entries, p.2.Counted valueName
  /-- No enum counts its values, and those of all enums together have all numbers that were given
  out, each once. -/
  global : r.numbering = .global → (∀ p ∈ r.values.entries, p.2.next = 0) ∧
    (pooled r.values).Perm ((List.range r.globalValues).map valueName)

theorem orderly_new (n : Numbering) : (new n).Orderly where
  types := List.nodup_nil
  models := rfl
  fields := rfl
  enums := rfl
  values := rfl
  relations := List.nodup_nil
  fieldScopes _ h := nomatch h
  relationScopes _ h := nomatch h
  valueScopes _ h := nomatch h
  perEnum _ := ⟨rfl, nofun⟩
  global _ := ⟨nofun, .nil⟩

/-! ### Names that are new -/

variable {r r' : Registry}

theorem not_mem_types {name : String} (h : r.hasType name = false) :
    name ∉ r.models.names ++ r.enums.names := by
  obtain ⟨hm, he⟩ := Bool.or_eq_false_iff.mp h
  intro hmem
  rcases List.mem_append.mp hmem with hmem | hmem
  · exact Table.contains_eq_false.mp hm hmem
  · exact Table.contains_eq_false.mp he hmem

theorem names_set_of_get? {t : Table Scope} {key : String} {scope : Scope}
    (h : t.get? key = some scope) (scope' : Scope) : (t.set key scope').names = t.names := by
  rw [Table.names_set, Table.contains, h, Option.isSome_some, if_pos rfl]

/-- One more name in one of the scopes is one more name in all of them together. -/
theorem pooled_set {t : Table Scope} {key name new : String} {scope : Scope} (next : Nat)
    (hnodup : t.names.Nodup) (h : t.get? key = some scope) :
    (pooled (t.set key ⟨scope.names.push name new, next⟩)).Perm (pooled t ++ [new]) := by
  obtain ⟨before, after, hentries, hset⟩ := Table.set_at hnodup h
  simp only [pooled, Table.contents, hentries, hset, List.map_append, List.map_cons,
    List.flatMap_append, List.flatMap_cons, Table.push, List.append_assoc, List.map_nil]
  refine .append_left _ (.append_left _ ?_)
  exact List.perm_append_comm

/-! ### One call -/

namespace Orderly

theorem nodup_values (h : r.Orderly) : r.values.names.Nodup := by
  rw [h.values, h.enums]
  exact List.nodup_range.map fun _ _ => enumName_inj

/-- Where the scopes are those of the owners so far, the next owner has none. -/
theorem set_next {t : Table String} {scopes : Table Scope} {stem : Nat → String}
    (hinj : ∀ {i j}, stem i = stem j → i = j) (hstem : t.contents = (List.range t.size).map stem)
    (hscopes : scopes.names = t.contents) (scope : Scope) :
    scopes.set (stem t.size) scope = scopes.push (stem t.size) scope := by
  refine Table.set_of_contains_eq_false (Table.contains_eq_false.mpr ?_)
  rw [hscopes, hstem, List.mem_map]
  rintro ⟨i, hi, heq⟩
  exact Nat.ne_of_lt (List.mem_range.mp hi) (hinj heq)

theorem pushModel (h : r.Orderly) {name : String} (hname : r.hasType name = false) :
    Orderly { r with
      models := r.models.push name (modelName r.models.size)
      fields := r.fields.push (modelName r.models.size) .empty } :=
  { h with
    types := by
      rw [Table.names_push, List.append_assoc, List.singleton_append, List.nodup_middle,
        List.nodup_cons]
      exact ⟨not_mem_types hname, h.types⟩
    models := Table.contents_push_next h.models name
    fields := by simp [h.fields]
    fieldScopes := by
      intro p hp
      rcases Table.mem_entries_push hp with rfl | hp
      · exact .empty fieldName
      · exact h.fieldScopes p hp
    relationScopes := by
      intro p hp
      obtain ⟨hkey, hscope⟩ := h.relationScopes p hp
      refine ⟨?_, hscope⟩
      rw [Table.contents_push]
      exact List.mem_append_left _ hkey }

theorem pushEnum (h : r.Orderly) {name : String} (hname : r.hasType name = false) :
    Orderly { r with
      enums := r.enums.push name (enumName r.enums.size)
      values := r.values.push (enumName r.enums.size) .empty } :=
  { h with
    types := by
      rw [Table.names_push, ← List.append_assoc, List.nodup_append_comm, List.singleton_append,
        List.nodup_cons]
      exact ⟨not_mem_types hname, h.types⟩
    enums := Table.contents_push_next h.enums name
    values := by simp [h.values]
    valueScopes := by
      intro p hp
      rcases Table.mem_entries_push hp with rfl | hp
      · exact List.nodup_nil
      · exact h.valueScopes p hp
    perEnum := by
      intro hn
      refine ⟨(h.perEnum hn).1, fun p hp => ?_⟩
      rcases Table.mem_entries_push hp with rfl | hp
      · exact .empty valueName
      · exact (h.perEnum hn).2 p hp
    global := by
      intro hn
      refine ⟨fun p hp => ?_, by simpa [pooled, Scope.empty] using (h.global hn).2⟩
      rcases Table.mem_entries_push hp with rfl | hp
      · rfl
      · exact (h.global hn).1 p hp }

theorem pushField (h : r.Orderly) {model name : String} {scope : Scope}
    (hscope : r.fields.get? model = some scope) (hnew : scope.names.contains name = false) :
    Orderly { r with fields := r.fields.set model (scope.add name (fieldName scope.next)) } :=
  { h with
    fields := (names_set_of_get? hscope _).trans h.fields
    fieldScopes := by
      intro p hp
      rcases Table.mem_entries_set hp with rfl | hp
      · exact (h.fieldScopes _ (Table.mem_of_get? hscope)).add hnew
      · exact h.fieldScopes p hp }

theorem pushValue (h : r.Orderly) {enum name : String} {scope : Scope}
    (hn : r.numbering = .perEnum) (hscope : r.values.get? enum = some scope)
    (hnew : scope.names.contains name = false) :
    Orderly { r with values := r.values.set enum (scope.add name (valueName scope.next)) } :=
  { h with
    values := (names_set_of_get? hscope _).trans h.values
    valueScopes := by
      intro p hp
      rcases Table.mem_entries_set hp with rfl | hp
      · exact Table.nodup_names_push (h.valueScopes _ (Table.mem_of_get? hscope)) hnew
      · exact h.valueScopes p hp
    perEnum := by
      intro _
      refine ⟨(h.perEnum hn).1, fun p hp => ?_⟩
      rcases Table.mem_entries_set hp with rfl | hp
      · exact ((h.perEnum hn).2 _ (Table.mem_of_get? hscope)).add hnew
      · exact (h.perEnum hn).2 p hp
    global := by
      intro hn'
      cases hn.symm.trans hn' }

theorem pushGlobalValue (h : r.Orderly) {enum name : String} {scope : Scope}
    (hn : r.numbering = .global) (hscope : r.values.get? enum = some scope)
    (hnew : scope.names.contains name = false) :
    Orderly { r with
      values := r.values.set enum
        { scope with names := scope.names.push name (valueName r.globalValues) }
      globalValues := r.globalValues + 1 } :=
  { h with
    values := (names_set_of_get? hscope _).trans h.values
    valueScopes := by
      intro p hp
      rcases Table.mem_entries_set hp with rfl | hp
      · exact Table.nodup_names_push (h.valueScopes _ (Table.mem_of_get? hscope)) hnew
      · exact h.valueScopes p hp
    perEnum := by
      intro hn'
      cases hn.symm.trans hn'
    global := by
      intro _
      obtain ⟨hnext, hpool⟩ := h.global hn
      refine ⟨fun p hp => ?_, ?_⟩
      · rcases Table.mem_entries_set hp with rfl | hp
        · exact hnext (enum, scope) (Table.mem_of_get? hscope)
        · exact hnext p hp
      · rw [List.range_succ, List.map_append]
        exact (pooled_set _ h.nodup_values hscope).trans (hpool.append_right _) }

theorem counted_relationScope (h : r.Orderly) (model : String) :
    (r.relationScope model).Counted (relationName model) := by
  unfold relationScope
  cases hscope : r.relations.get? model with
  | none => exact .empty _
  | some scope => exact (h.relationScopes _ (Table.mem_of_get? hscope)).2.2

theorem pushRelation (h : r.Orderly) {model name : String} (hmodel : r.isModel model = true)
    (hnew : (r.relationScope model).names.contains name = false) :
    Orderly { r with relations := r.relations.set model ((r.relationScope model).add name
      (relationName model (r.relationScope model).next)) } :=
  { h with
    relations := by
      rw [Table.names_set]
      split
      · exact h.relations
      · next hno =>
        rw [← Table.names_push _ _ Scope.empty]
        exact Table.nodup_names_push h.relations (Bool.not_eq_true _ ▸ hno)
    relationScopes := by
      intro p hp
      rcases Table.mem_entries_set hp with rfl | hp
      · refine ⟨?_, ?_, (h.counted_relationScope model).add hnew⟩
        · rw [← h.fields]
          exact Table.contains_iff.mp hmodel
        · rw [Scope.add, Table.size_push]
          exact Nat.succ_ne_zero _
      · exact h.relationScopes p hp }

/-- A call keeps the tables and the counters in step. -/
theorem call (h : r.Orderly) (c : Call) : (r.call c).2.Orderly := by
  have houtcome := outcome_call r c
  generalize (r.call c).1 = reply, (r.call c).2 = r' at houtcome
  cases houtcome with
  | failed _ e => exact h
  | asked _ reply => exact h
  | there => exact h
  | model hname =>
    rw [set_next modelName_inj h.models h.fields]
    exact h.pushModel hname
  | enum hname =>
    rw [set_next enumName_inj h.enums h.values]
    exact h.pushEnum hname
  | @entered _ shelf _ _ _ _ hscope hnew =>
    cases shelf with
    | fields => exact h.pushField hscope hnew
    | values => exact h.pushValue hscope.1 hscope.2 hnew
    | relations =>
      obtain ⟨hmodel, rfl⟩ := hscope
      exact h.pushRelation hmodel hnew
  | enteredGlobal hn hscope hnew => exact h.pushGlobalValue hn hscope hnew
  | envVar => exact { h with }

theorem after (h : r.Orderly) (calls : List Call) : (r.after calls).Orderly :=
  after_induction (fun _ c hr => hr.call c) calls h

/-! ### What follows from the tables being in step -/

/-- No new name is that of a model and that of an enum. -/
theorem isModel_or_isEnum (h : r.Orderly) (new : String) :
    r.isModel new = false ∨ r.isEnum new = false := by
  by_contra hboth
  rw [not_or, Bool.not_eq_false, Bool.not_eq_false] at hboth
  have hm := Table.contains_iff.mp hboth.1
  have he := Table.contains_iff.mp hboth.2
  rw [h.fields, h.models, List.mem_map] at hm
  rw [h.values, h.enums, List.mem_map] at he
  obtain ⟨i, -, rfl⟩ := hm
  obtain ⟨j, -, hj⟩ := he
  exact modelName_ne_enumName i j hj.symm

/-- No two relations share a new name, of whatever models they are. -/
theorem nodup_relations (h : r.Orderly) : (pooled r.relations).Nodup := by
  have hname : ∀ p ∈ r.relations.entries, ∀ new ∈ p.2.names.contents,
      ∃ i k, p.1 = modelName i ∧ new = relationName (modelName i) k := by
    intro p hp new hnew
    obtain ⟨hkey, -, hcounted⟩ := h.relationScopes p hp
    rw [h.models, List.mem_map] at hkey
    rw [hcounted.names.contents, List.mem_map] at hnew
    obtain ⟨i, -, hi⟩ := hkey
    obtain ⟨k, -, hk⟩ := hnew
    exact ⟨i, k, hi.symm, hi ▸ hk.symm⟩
  rw [pooled, Table.contents, List.flatMap_map, List.nodup_flatMap]
  refine ⟨fun p hp => (h.relationScopes p hp).2.2.names.nodup_contents fun _ _ => relationName_inj, ?_⟩
  have hkeys : r.relations.entries.Pairwise fun p q => p.1 ≠ q.1 := List.pairwise_map.mp h.relations
  refine hkeys.imp_of_mem fun {p q} hp hq hne new hnew hnew' => hne ?_
  obtain ⟨i, k, hi, hk⟩ := hname p hp new hnew
  obtain ⟨j, l, hj, hl⟩ := hname q hq new hnew'
  rw [hi, hj, (relationName_inj₂ (hk.symm.trans hl)).1]

theorem nodup_pooled_values (h : r.Orderly) (hn : r.numbering = .global) :
    (pooled r.values).Nodup :=
  (h.global hn).2.nodup_iff.mpr (List.nodup_range.map fun _ _ => valueName_inj)

end Orderly

/-! ### Counters that run on -/

theorem numbering_call (r : Registry) (c : Call) : (r.call c).2.numbering = r.numbering := by
  have houtcome := outcome_call r c
  generalize (r.call c).1 = reply, (r.call c).2 = r' at houtcome
  cases houtcome with
  | entered => exact numbering_put
  | _ => rfl

theorem numbering_after (r : Registry) (calls : List Call) :
    (r.after calls).numbering = r.numbering :=
  after_induction (P := fun r' => r'.numbering = r.numbering)
    (fun r' c h => (numbering_call r' c).trans h) calls rfl

/-- If each call gives out the next numbers of a counter, so do many. -/
theorem granted_counted {sort : Call → Bool} {stem : Nat → String} (count : Registry → Nat)
    (P : Registry → Prop) (hkeep : ∀ r c, P r → P (r.call c).2)
    (hstep : ∀ r c, P r → (List.range (count r)).map stem ++ granted sort r [c] =
      (List.range (count (r.call c).2)).map stem) :
    ∀ (calls : List Call) {r : Registry}, P r →
      (List.range (count r)).map stem ++ granted sort r calls =
        (List.range (count (r.after calls))).map stem
  | [], r, _ => List.append_nil _
  | c :: calls, r, hr => by
    have hcons :
        granted sort r (c :: calls) = granted sort r [c] ++ granted sort (r.call c).2 calls := by
      rw [granted, granted, granted, List.append_nil]
    rw [hcons, ← List.append_assoc, hstep r c hr]
    exact granted_counted count P hkeep hstep calls (hkeep r c hr)

theorem granted_envVars (r : Registry) (c : Call) :
    (List.range r.envVars).map envName ++ granted (·.namesEnvVar) r [c] =
      (List.range (r.call c).2.envVars).map envName := by
  have houtcome := outcome_call r c
  rw [granted, granted]
  generalize (r.call c).1 = reply, (r.call c).2 = r' at houtcome
  cases houtcome with
  | failed _ e => simp [Reply.name?]
  | asked _ reply _ henv => simp [henv]
  | entered hc =>
    have hc : c.namesEnvVar = false := by
      cases c with
      | registerEnvVar => cases hc
      | _ => rfl
    simp [hc]
  | envVar => simp [Call.namesEnvVar, Reply.name?, List.range_succ]
  | _ => simp [Call.namesEnvVar]

theorem granted_values (r : Registry) (c : Call) (hn : r.numbering = .global) :
    (List.range r.globalValues).map valueName ++ granted (·.namesValue) r [c] =
      (List.range (r.call c).2.globalValues).map valueName := by
  have houtcome := outcome_call r c
  rw [granted, granted]
  generalize (r.call c).1 = reply, (r.call c).2 = r' at houtcome
  cases houtcome with
  | failed _ e => simp [Reply.name?]
  | asked _ reply h =>
    cases c with
    | registerValue enum name => cases h
    | _ => simp [Call.namesValue]
  | entered hc hscope =>
    have hc : c.namesValue = false := by
      cases c with
      | registerValue enum name =>
        cases hc
        cases hn.symm.trans hscope.1
      | _ => rfl
    simp [hc]
  | enteredGlobal => simp [Call.namesValue, Reply.name?, List.range_succ]
  | _ => simp [Call.namesValue]

/-- **Calls keep a registry in order.** After whatever calls on an empty registry the
tables are in step, no new name is that of a model and that of an enum, no two relations
share a new name, and neither do two values if they are numbered through all enums; and the
names given out to environment variables, and to such values, are numbered in the order
of the calls. -/
theorem orderly_after (n : Numbering) (calls : List Call) :
    ((new n).after calls).numbering = n ∧ ((new n).after calls).Orderly ∧
      (∀ x, ((new n).after calls).isModel x = false ∨ ((new n).after calls).isEnum x = false) ∧
      (pooled ((new n).after calls).relations).Nodup ∧
      (n = .global → (pooled ((new n).after calls).values).Nodup ∧
        granted (·.namesValue) (new n) calls =
          (List.range ((new n).after calls).globalValues).map valueName) ∧
      granted (·.namesEnvVar) (new n) calls =
        (List.range ((new n).after calls).envVars).map envName := by
  have h := (orderly_new n).after calls
  have hn : ((new n).after calls).numbering = n := numbering_after (new n) calls
  refine ⟨hn, h, h.isModel_or_isEnum, h.nodup_relations, fun hglobal => ⟨?_, ?_⟩, ?_⟩
  · exact h.nodup_pooled_values (hn.trans hglobal)
  · have hrun := granted_counted globalValues (fun r => r.numbering = .global)
      (fun r c hr => (numbering_call r c).trans hr) granted_values calls (r := new n) hglobal
    exact hrun
  · have hrun := granted_counted envVars (fun _ => True) (fun _ _ _ => trivial)
      (fun r c _ => granted_envVars r c) calls (r := new n) trivial
    exact hrun

end Registry

end Pseudonym

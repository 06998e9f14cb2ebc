/-
# What registering comes to

Every registration is a few steps that change a registry in place. All of
them together come to one equation: the answer, and the registry after it.
Where the answer is a fault, the registry after it is the one before, although
a scope may have been put in on the way; else one name was put in, and one
counter went on by one.
-/
import Pseudonym.Proofs.Names.Entries

namespace Pseudonym

theorem Numbering.perEnum_or_global (n : Numbering) : n = .perEnum ∨ n = .global := by
  cases n <;> simp

namespace Registry

variable {α β : Type} {r : Registry} {shelf : Shelf} {owner name : String} {scope : Scope}

/-! ### Steps -/

/-- A step behind a check that fails where the condition holds. -/
theorem perform_if (c : Bool) (e : Fault) (x : Step α) :
    r.perform (do
      if c then throw e
      x) = if c then (.error e, r) else r.perform x := by
  cases c <;> rfl

/-- A step behind a check that fails where the condition does not hold. -/
theorem perform_unless (c : Bool) (e : Fault) (x : Step α) :
    r.perform (do
      unless c do throw e
      x) = if c then r.perform x else (.error e, r) := by
  cases c <;> rfl

theorem perform_get (f : Registry → Step β) : r.perform (get >>= f) = r.perform (f r) := rfl

theorem perform_modify (g : Registry → Registry) (f : PUnit → Step β) :
    r.perform (modify g >>= f) = (g r).perform (f ⟨⟩) := rfl

/-- One step after another that succeeds. -/
theorem perform_bind {x : Step α} {a : α} {r' : Registry} (h : r.perform x = (.ok a, r'))
    (f : α → Step β) : r.perform (x >>= f) = r'.perform (f a) := by
  have hbind : r.perform (x >>= f) = ExceptT.bindCont f (r.perform x).1 (r.perform x).2 := rfl
  rw [hbind, h]
  rfl

theorem perform_map (f : α → β) (x : Step α) :
    r.perform (f <$> x) = ((r.perform x).1.map f, (r.perform x).2) := by
  cases h : (r.perform x).1 with
  | ok a =>
    rw [map_eq_pure_bind, perform_bind (Prod.ext h rfl)]
    rfl
  | error e =>
    have hmap : r.perform (f <$> x) =
        ExceptT.bindCont (m := StateM Registry) (fun a => pure (f a)) (r.perform x).1
          (r.perform x).2 := rfl
    rw [hmap, h]
    rfl

/-! ### Scopes -/

/-- The registry with this scope for an owner. -/
def put (r : Registry) (shelf : Shelf) (owner : String) (scope : Scope) : Registry :=
  r.mapScopes (·.set owner scope) shelf

/-- What becomes of a name that is to be put into a scope: it gets the next number, unless it is
there. -/
def enter (r : Registry) (shelf : Shelf) (owner name : String) (scope : Scope) :
    Except Fault String × Registry :=
  if scope.names.contains name then (.error (.of (.duplicate shelf.noun name (some owner))), r)
  else (.ok (shelf.newName owner scope.next),
    r.put shelf owner (scope.add name (shelf.newName owner scope.next)))

@[simp] theorem scopes_mapScopes (f : Table Scope → Table Scope) :
    (r.mapScopes f shelf).scopes shelf = f (r.scopes shelf) := by
  cases shelf <;> rfl

theorem scopes_mapScopes_of_ne {shelf' : Shelf} (h : shelf' ≠ shelf)
    (f : Table Scope → Table Scope) : (r.mapScopes f shelf).scopes shelf' = r.scopes shelf' := by
  cases shelf <;> cases shelf' <;> first | rfl | exact absurd rfl h

theorem mapScopes_congr {f g : Table Scope → Table Scope}
    (h : f (r.scopes shelf) = g (r.scopes shelf)) : r.mapScopes f shelf = r.mapScopes g shelf := by
  cases shelf with
  | fields => exact congrArg (fun t => { r with fields := t }) h
  | values => exact congrArg (fun t => { r with values := t }) h
  | relations => exact congrArg (fun t => { r with relations := t }) h

theorem mapScopes_change (hscope : (r.scopes shelf).get? owner = some scope) (f : Scope → Scope) :
    r.mapScopes (·.change owner f) shelf = r.put shelf owner (f scope) :=
  mapScopes_congr (Table.change_of_get? hscope f)

theorem put_put (scope scope' : Scope) :
    (r.put shelf owner scope).put shelf owner scope' = r.put shelf owner scope' := by
  cases shelf <;> simp only [put, mapScopes, Table.set_set]

@[simp] theorem numbering_put : (r.put shelf owner scope).numbering = r.numbering := by
  cases shelf <;> rfl

@[simp] theorem envVars_put : (r.put shelf owner scope).envVars = r.envVars := by
  cases shelf <;> rfl

@[simp] theorem globalValues_put : (r.put shelf owner scope).globalValues = r.globalValues := by
  cases shelf <;> rfl

theorem get?_scopes_put (r : Registry) (shelf : Shelf) (owner : String) (scope : Scope) :
    ((r.put shelf owner scope).scopes shelf).get? owner = some scope := by
  rw [put, scopes_mapScopes, Table.get?_set, if_pos rfl]

theorem perform_allocate (shelf : Shelf) (hscope : (r.scopes shelf).get? owner = some scope) :
    r.perform (allocate shelf owner) =
      (.ok scope.next, r.put shelf owner { scope with next := scope.next + 1 }) := by
  rw [allocate, perform_get, perform_modify, mapScopes_change hscope, hscope]
  rfl

/-- A number is taken, and then the name is put in with it. -/
theorem perform_enroll (shelf : Shelf) {number : Step Nat} {i next : Nat} {r' : Registry}
    (hscope : (r.scopes shelf).get? owner = some scope) (hnumber : r.perform number = (.ok i, r'))
    (hscope' : (r'.scopes shelf).get? owner = some { scope with next := next }) :
    r.perform (enroll shelf owner name number) =
      if scope.names.contains name then (.error (.of (.duplicate shelf.noun name (some owner))), r)
      else (.ok (shelf.newName owner i),
        r'.put shelf owner ⟨scope.names.push name (shelf.newName owner i), next⟩) := by
  have hfound : (r.found shelf owner name).isSome = scope.names.contains name := by
    rw [found, hscope, Option.bind_some, Table.contains]
  rw [enroll, perform_get, perform_if, hfound, perform_bind hnumber]
  cases hnew : scope.names.contains name with
  | true => rfl
  | false =>
    dsimp only
    rw [perform_modify, mapScopes_change hscope', Table.set_of_contains_eq_false hnew]
    rfl

theorem perform_enroll_allocate (shelf : Shelf)
    (hscope : (r.scopes shelf).get? owner = some scope) :
    r.perform (enroll shelf owner name (allocate shelf owner)) = r.enter shelf owner name scope := by
  rw [perform_enroll shelf hscope (perform_allocate shelf hscope) (get?_scopes_put ..), put_put]
  rfl

/-! ### Registering -/

theorem perform_registerModel (r : Registry) (name : String) : r.perform (registerModel name) =
    if r.hasType name then (.error (.of (.duplicate .model name none)), r)
    else (.ok (modelName r.models.size), { r with
      models := r.models.push name (modelName r.models.size)
      fields := r.fields.set (modelName r.models.size) .empty }) := by
  simp only [registerModel, checkType, bind_assoc, perform_get]
  cases h : r.hasType name with
  | true => rfl
  | false =>
    rw [← Table.set_of_contains_eq_false (Bool.or_eq_false_iff.mp h).1]
    rfl

theorem perform_registerEnum (r : Registry) (name : String) : r.perform (registerEnum name) =
    if r.hasType name then (.error (.of (.duplicate .enum name none)), r)
    else (.ok (enumName r.enums.size), { r with
      enums := r.enums.push name (enumName r.enums.size)
      values := r.values.set (enumName r.enums.size) .empty }) := by
  simp only [registerEnum, checkType, bind_assoc, perform_get]
  cases h : r.hasType name with
  | true => rfl
  | false =>
    rw [← Table.set_of_contains_eq_false (Bool.or_eq_false_iff.mp h).2]
    rfl

theorem perform_registerField (r : Registry) (model name : String) :
    r.perform (registerField model name) =
      match r.fields.get? model with
      | none => (.error (.of (.unresolved .model model none)), r)
      | some scope => r.enter .fields model name scope := by
  rw [registerField, perform_get, perform_unless, isModel, Table.contains]
  cases hscope : r.fields.get? model with
  | none => rfl
  | some scope => exact perform_enroll_allocate .fields hscope

theorem perform_registerValue_perEnum (hn : r.numbering = .perEnum) (enum name : String) :
    r.perform (registerValue enum name) =
      match r.values.get? enum with
      | none => (.error (.of (.unresolved .enum enum none)), r)
      | some scope => r.enter .values enum name scope := by
  rw [registerValue, perform_get, perform_unless, isEnum, Table.contains]
  cases hscope : r.values.get? enum with
  | none => rfl
  | some scope =>
    have hnumber : r.perform (allocateValue enum) = r.perform (allocate .values enum) := by
      rw [allocateValue, perform_get, hn]
    rw [perform_allocate .values hscope] at hnumber
    rw [Option.isSome_some, if_pos rfl, perform_enroll .values hscope hnumber
      (get?_scopes_put ..), put_put]
    rfl

/-- What becomes of a value that is to be numbered through all enums. -/
def enterGlobal (r : Registry) (enum name : String) (scope : Scope) :
    Except Fault String × Registry :=
  if scope.names.contains name then (.error (.of (.duplicate .enumValue name (some enum))), r)
  else (.ok (valueName r.globalValues), { r with
    values := r.values.set enum
      { scope with names := scope.names.push name (valueName r.globalValues) }
    globalValues := r.globalValues + 1 })

theorem perform_registerValue_global (hn : r.numbering = .global) (enum name : String) :
    r.perform (registerValue enum name) =
      match r.values.get? enum with
      | none => (.error (.of (.unresolved .enum enum none)), r)
      | some scope => r.enterGlobal enum name scope := by
  rw [registerValue, perform_get, perform_unless, isEnum, Table.contains]
  cases hscope : r.values.get? enum with
  | none => rfl
  | some scope =>
    have hnumber : r.perform (allocateValue enum) =
        (.ok r.globalValues, { r with globalValues := r.globalValues + 1 }) := by
      rw [allocateValue, perform_get]
      split
      · next hn' => cases hn.symm.trans hn'
      · rfl
    rw [Option.isSome_some, if_pos rfl, perform_enroll .values hscope hnumber hscope]
    rfl

/-- However the values are numbered, a value of an enum that is not known is refused. -/
theorem perform_registerValue_of_none {enum : String} (h : r.values.get? enum = none)
    (name : String) : r.perform (registerValue enum name) =
      (.error (.of (.unresolved .enum enum none)), r) := by
  rw [registerValue, perform_get, perform_unless, isEnum, Table.contains, h]
  rfl

/-- However the values are numbered, a new one goes behind those of the enum. -/
theorem perform_registerValue_of_some {enum : String} (hscope : r.values.get? enum = some scope)
    (name : String) : ∃ new next count, r.perform (registerValue enum name) =
      if scope.names.contains name then (.error (.of (.duplicate .enumValue name (some enum))), r)
      else (.ok new, { r with
        values := r.values.set enum ⟨scope.names.push name new, next⟩
        globalValues := count }) := by
  rcases r.numbering.perEnum_or_global with hn | hn
  · refine ⟨valueName scope.next, scope.next + 1, r.globalValues, ?_⟩
    rw [perform_registerValue_perEnum hn, hscope]
    rfl
  · refine ⟨valueName r.globalValues, scope.next, r.globalValues + 1, ?_⟩
    rw [perform_registerValue_global hn, hscope]
    rfl

/-- The scope of the relations of a model, which is empty as long as it has none. -/
def relationScope (r : Registry) (model : String) : Scope := (r.relations.get? model).getD .empty

theorem found_relations (r : Registry) (model name : String) :
    r.found .relations model name = (r.relationScope model).names.get? name := by
  rw [relationScope, found, scopes]
  cases r.relations.get? model <;> rfl

theorem resolve_eq_ok {shelf : Shelf} {owner name new : String} :
    r.resolve shelf owner name = .ok new ↔ r.found shelf owner name = some new := by
  unfold resolve
  cases r.found shelf owner name <;> simp

/-- Where a name is in the scope of a model, the scope was there before it was made sure of. -/
theorem enter_ensure (r : Registry) (model name : String) :
    enter { r with relations := r.relations.ensure model .empty } .relations model name
      (r.relationScope model) = r.enter .relations model name (r.relationScope model) := by
  unfold enter
  cases hnew : (r.relationScope model).names.contains name with
  | false =>
    simp only [put, mapScopes, Table.set_ensure]
    rfl
  | true =>
    have hthere : r.relations.contains model = true := by
      by_contra hno
      rw [relationScope, Option.not_isSome_iff_eq_none.mp hno] at hnew
      cases hnew
    rw [Table.ensure, if_pos hthere]

theorem perform_registerRelation (r : Registry) (model name : String) :
    r.perform (registerRelation model name) =
      if r.isModel model then r.enter .relations model name (r.relationScope model)
      else (.error (.of (.unresolved .model model none)), r) := by
  have hscope := Table.get?_ensure_self r.relations model .empty
  rw [registerRelation, perform_get, perform_unless, perform_modify, ← enter_ensure]
  rw [perform_enroll_allocate (r := { r with relations := r.relations.ensure model .empty })
    .relations hscope]
  rfl

theorem perform_ask (question : Registry → Except Fault α) :
    r.perform (ask question) = (question r, r) := by
  rw [ask, perform_get]
  cases question r <;> rfl

theorem perform_map_ask (f : α → β) (question : Registry → Except Fault α) :
    r.perform (f <$> ask question) = ((question r).map f, r) := by
  rw [perform_map, perform_ask]

theorem perform_ensureField (r : Registry) (model name : String) :
    r.perform (ensureField model name) =
      match r.resolveField model name with
      | .ok new => (.ok new, r)
      | .error _ => r.perform (registerField model name) := by
  rw [ensureField, perform_get]
  cases r.resolveField model name <;> rfl

end Registry

end Pseudonym

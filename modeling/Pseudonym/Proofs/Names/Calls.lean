/-
# Calls on a registry, one after the other

What a call can do to a registry, said once: it fails, or answers from the
tables, and leaves the registry as it is; or it gives out one new name, puts
it into one table, and lets one counter go on. Everything that holds of all
registries that calls lead to is shown by going through these outcomes.
-/
import Pseudonym.Proofs.Names.Steps

namespace Pseudonym

namespace Registry

/-! ### Runs of calls -/

/-- The registry after some calls, whether they fail or not. -/
def after (r : Registry) (calls : List Call) : Registry := calls.foldl (fun r c => (r.call c).2) r

/-- What a call keeps, calls keep. -/
theorem after_induction {P : Registry → Prop} (h : ∀ r c, P r → P (r.call c).2) :
    ∀ (calls : List Call) {r : Registry}, P r → P (r.after calls)
  | [], _, hr => hr
  | c :: calls, r, hr => after_induction h calls (h r c hr)

/-- The answers to some calls, one after the other. -/
def answers (r : Registry) : List Call → List (Except Fault Reply)
  | [] => []
  | c :: calls => (r.call c).1 :: (r.call c).2.answers calls

/-- The name that an answer gives. -/
def Reply.name? : Except Fault Reply → Option String
  | .ok (.name new) => some new
  | .ok (.truth _) => none
  | .error _ => none

/-- The names that those of some calls gave out that are of one sort. -/
def granted (sort : Call → Bool) (r : Registry) : List Call → List String
  | [] => []
  | c :: calls =>
    (if sort c then (Reply.name? (r.call c).1).toList else []) ++ granted sort (r.call c).2 calls

namespace Call

/-- The call that asks for a name in the scope of an owner. -/
def asking (shelf : Shelf) (owner name : String) : Call :=
  match shelf with
  | .fields => .resolveField owner name
  | .values => .resolveValue owner name
  | .relations => .resolveRelation owner name

/-- The call that asks for the name that a registration gave out. -/
def resolving? : Call → Option Call
  | .registerModel name => some (.resolveType name)
  | .registerEnum name => some (.resolveType name)
  | .registerField model name => some (.resolveField model name)
  | .ensureField model name => some (.resolveField model name)
  | .registerValue enum name => some (.resolveValue enum name)
  | .registerRelation model name => some (.resolveRelation model name)
  | _ => none

/-- The scope that a registration puts a name into, and the name. -/
def entry? : Call → Option (Shelf × String × String)
  | .registerField model name => some (.fields, model, name)
  | .ensureField model name => some (.fields, model, name)
  | .registerValue enum name => some (.values, enum, name)
  | .registerRelation model name => some (.relations, model, name)
  | _ => none

/-- Whether a call asks for a name that was given out before. -/
def resolves : Call → Bool
  | .resolveType _ => true
  | .resolveField _ _ => true
  | .resolveValue _ _ => true
  | .resolveRelation _ _ => true
  | _ => false

/-- Whether a call names an environment variable. -/
def namesEnvVar : Call → Bool
  | .registerEnvVar => true
  | _ => false

/-- Whether a call registers a value of an enum. -/
def namesValue : Call → Bool
  | .registerValue _ _ => true
  | _ => false

end Call

/-! ### What a call can do -/

/-- The scope that a name goes into where the scope counts its names. -/
def Offers (r : Registry) (owner : String) (scope : Scope) : Shelf → Prop
  | .fields => r.fields.get? owner = some scope
  | .values => r.numbering = .perEnum ∧ r.values.get? owner = some scope
  | .relations => r.isModel owner = true ∧ r.relationScope owner = scope

/-- What becomes of a call: its answer, and the registry after it. -/
inductive Outcome (r : Registry) : Call → Except Fault Reply → Registry → Prop
  | failed (c : Call) (e : Fault) : Outcome r c (.error e) r
  /-- Something is asked, and nothing given out. -/
  | asked (c : Call) (reply : Reply) (h : c.resolving? = none) (henv : c.namesEnvVar = false) :
    Outcome r c (.ok reply) r
  /-- The name was there already. -/
  | there {model name new : String} (h : r.resolveField model name = .ok new) :
    Outcome r (.ensureField model name) (.ok (.name new)) r
  | model {name : String} (h : r.hasType name = false) :
    Outcome r (.registerModel name) (.ok (.name (modelName r.models.size)))
      { r with
        models := r.models.push name (modelName r.models.size)
        fields := r.fields.set (modelName r.models.size) .empty }
  | enum {name : String} (h : r.hasType name = false) :
    Outcome r (.registerEnum name) (.ok (.name (enumName r.enums.size)))
      { r with
        enums := r.enums.push name (enumName r.enums.size)
        values := r.values.set (enumName r.enums.size) .empty }
  | entered {c : Call} {shelf : Shelf} {owner name : String} {scope : Scope}
    (hc : c.entry? = some (shelf, owner, name)) (hscope : r.Offers owner scope shelf)
    (hnew : scope.names.contains name = false) :
    Outcome r c (.ok (.name (shelf.newName owner scope.next)))
      (r.put shelf owner (scope.add name (shelf.newName owner scope.next)))
  | enteredGlobal {enum name : String} {scope : Scope} (hn : r.numbering = .global)
    (hscope : r.values.get? enum = some scope) (hnew : scope.names.contains name = false) :
    Outcome r (.registerValue enum name) (.ok (.name (valueName r.globalValues)))
      { r.put .values enum
          { scope with names := scope.names.push name (valueName r.globalValues) } with
        globalValues := r.globalValues + 1 }
  | envVar : Outcome r .registerEnvVar (.ok (.name (envName r.envVars)))
      { r with envVars := r.envVars + 1 }

variable {r : Registry}

theorem outcome_registerModel (name : String) : Outcome r (.registerModel name)
    ((r.perform (registerModel name)).1.map .name) (r.perform (registerModel name)).2 := by
  rw [perform_registerModel]
  cases h : r.hasType name with
  | true => exact .failed _ _
  | false => exact .model h

theorem outcome_registerEnum (name : String) : Outcome r (.registerEnum name)
    ((r.perform (registerEnum name)).1.map .name) (r.perform (registerEnum name)).2 := by
  rw [perform_registerEnum]
  cases h : r.hasType name with
  | true => exact .failed _ _
  | false => exact .enum h

theorem outcome_enter {c : Call} {shelf : Shelf} {owner name : String} {scope : Scope}
    (hc : c.entry? = some (shelf, owner, name)) (hscope : r.Offers owner scope shelf) :
    Outcome r c ((r.enter shelf owner name scope).1.map .name) (r.enter shelf owner name scope).2 := by
  unfold enter
  cases hnew : scope.names.contains name with
  | true => exact .failed _ _
  | false => exact .entered hc hscope hnew

theorem outcome_registerField {c : Call} {model name : String}
    (hc : c.entry? = some (.fields, model, name)) :
    Outcome r c ((r.perform (registerField model name)).1.map .name)
      (r.perform (registerField model name)).2 := by
  rw [perform_registerField]
  cases hscope : r.fields.get? model with
  | none => exact .failed _ _
  | some scope => exact outcome_enter hc hscope

theorem outcome_registerValue (enum name : String) : Outcome r (.registerValue enum name)
    ((r.perform (registerValue enum name)).1.map .name) (r.perform (registerValue enum name)).2 := by
  rcases r.numbering.perEnum_or_global with hn | hn
  · rw [perform_registerValue_perEnum hn]
    cases hscope : r.values.get? enum with
    | none => exact .failed _ _
    | some scope => exact outcome_enter rfl ⟨hn, hscope⟩
  · rw [perform_registerValue_global hn]
    cases hscope : r.values.get? enum with
    | none => exact .failed _ _
    | some scope =>
      dsimp only
      unfold enterGlobal
      cases hnew : scope.names.contains name with
      | true => exact .failed _ _
      | false => exact .enteredGlobal hn hscope hnew

theorem outcome_registerRelation (model name : String) : Outcome r (.registerRelation model name)
    ((r.perform (registerRelation model name)).1.map .name)
    (r.perform (registerRelation model name)).2 := by
  rw [perform_registerRelation]
  cases hmodel : r.isModel model with
  | false => exact .failed _ _
  | true => exact outcome_enter rfl ⟨hmodel, rfl⟩

theorem outcome_ask (c : Call) (question : Registry → Except Fault String)
    (h : c.resolving? = none) (henv : c.namesEnvVar = false) :
    Outcome r c ((r.perform (ask question)).1.map .name) (r.perform (ask question)).2 := by
  rw [perform_ask]
  cases question r with
  | error e => exact .failed c e
  | ok new => exact .asked c (.name new) h henv

theorem outcome_ensureField (model name : String) : Outcome r (.ensureField model name)
    ((r.perform (ensureField model name)).1.map .name) (r.perform (ensureField model name)).2 := by
  rw [perform_ensureField]
  cases h : r.resolveField model name with
  | ok new => exact .there h
  | error e => exact outcome_registerField rfl

theorem outcome_name {c : Call} {x : Step String}
    (h : Outcome r c ((r.perform x).1.map .name) (r.perform x).2) :
    Outcome r c (r.perform (Reply.name <$> x)).1 (r.perform (Reply.name <$> x)).2 := by
  rw [perform_map]
  exact h

/-- Every call has one of these outcomes. -/
theorem outcome_call (r : Registry) (c : Call) : Outcome r c (r.call c).1 (r.call c).2 := by
  cases c with
  | registerModel name => exact outcome_name (outcome_registerModel name)
  | registerEnum name => exact outcome_name (outcome_registerEnum name)
  | registerField model name => exact outcome_name (outcome_registerField rfl)
  | ensureField model name => exact outcome_name (outcome_ensureField model name)
  | registerValue enum name => exact outcome_name (outcome_registerValue enum name)
  | registerRelation model name => exact outcome_name (outcome_registerRelation model name)
  | registerEnvVar => exact .envVar
  | resolveType name => exact outcome_name (outcome_ask _ _ rfl rfl)
  | resolveField model name => exact outcome_name (outcome_ask _ _ rfl rfl)
  | resolveValue enum name => exact outcome_name (outcome_ask _ _ rfl rfl)
  | resolveRelation model name => exact outcome_name (outcome_ask _ _ rfl rfl)
  | isModel new => exact .asked _ _ rfl rfl
  | isEnum new => exact .asked _ _ rfl rfl

end Registry

end Pseudonym

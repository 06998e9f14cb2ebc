/-
# What a registry gave out stays

A call that fails leaves the registry as it was, so all later calls are
answered as if it had not been made. A call that succeeds adds at most one
name and takes none back: whatever the registry answered when it was asked
for a name, it answers again, after this call and after all that follow. The
name that a registration gave out is what the registry then answers for it.

Key definitions: `Registry.Extends`.
-/
import Pseudonym.Proofs.Names.Orderly

namespace Pseudonym

namespace Registry

variable {r r' : Registry} {shelf : Shelf} {owner name : String} {scope : Scope}

/-! ### Names in scopes -/

theorem found_of_get? (shelf : Shelf) (h : (r.scopes shelf).get? owner = some scope) (name : String) :
    r.found shelf owner name = scope.names.get? name := by
  rw [found, h, Option.bind_some]

theorem Offers.found (h : r.Offers owner scope shelf) (name : String) :
    r.found shelf owner name = scope.names.get? name := by
  cases shelf with
  | fields => exact found_of_get? .fields h name
  | values => exact found_of_get? .values h.2 name
  | relations =>
    rw [← h.2]
    exact found_relations r owner name

theorem found_put_self (r : Registry) (shelf : Shelf) (owner : String) (scope : Scope)
    (name : String) : (r.put shelf owner scope).found shelf owner name = scope.names.get? name :=
  found_of_get? shelf (get?_scopes_put r shelf owner scope) name

/-- Only the names of the owner can change with its scope. -/
theorem found_put {shelf' : Shelf} {owner' name' new : String}
    (h : r.found shelf' owner' name' = some new)
    (hscope : r.found shelf owner name' = some new → scope.names.get? name' = some new) :
    (r.put shelf owner scope).found shelf' owner' name' = some new := by
  by_cases hshelf : shelf' = shelf
  · subst hshelf
    by_cases howner : owner' = owner
    · subst howner
      rw [found_put_self]
      exact hscope h
    · rw [found, put, scopes_mapScopes, Table.get?_set, if_neg howner]
      exact h
  · rw [found, put, scopes_mapScopes_of_ne hshelf]
    exact h

theorem found_globalValues (r : Registry) (n : Nat) :
    found { r with globalValues := n } = r.found := by
  funext shelf
  cases shelf <;> rfl

theorem found_push_empty {t : Table Scope} {key new : String}
    (h : (t.get? owner).bind (·.names.get? name) = some new) :
    ((t.push key .empty).get? owner).bind (·.names.get? name) = some new := by
  obtain ⟨scope, hscope, hname⟩ := Option.bind_eq_some_iff.mp h
  rw [Table.get?_push_of_some hscope, Option.bind_some, hname]

theorem resolveType_eq_ok {name new : String} : r.resolveType name = .ok new ↔
    (r.models.get? name).or (r.enums.get? name) = some new := by
  unfold resolveType
  cases (r.models.get? name).or (r.enums.get? name) <;> simp

/-! ### Registries that answer what others answered -/

/-- Each name that the one registry gives when it is asked, the other gives too. -/
structure Extends (r r' : Registry) : Prop where
  types : ∀ {name new}, r.resolveType name = .ok new → r'.resolveType name = .ok new
  scopes : ∀ {shelf owner name new},
    r.resolve shelf owner name = .ok new → r'.resolve shelf owner name = .ok new

namespace Extends

theorem refl (r : Registry) : r.Extends r := ⟨id, id⟩

theorem trans {r'' : Registry} (h : r.Extends r') (h' : r'.Extends r'') : r.Extends r'' :=
  ⟨h'.types ∘ h.types, h'.scopes ∘ h.scopes⟩

theorem of_found (htypes : ∀ {name new}, r.resolveType name = .ok new → r'.resolveType name = .ok new)
    (h : ∀ {shelf owner name new}, r.found shelf owner name = some new →
      r'.found shelf owner name = some new) : r.Extends r' :=
  ⟨htypes, fun hok => resolve_eq_ok.mpr (h (resolve_eq_ok.mp hok))⟩

/-- What a registry answered when it was asked for a name, one that extends it answers. -/
theorem call_eq_ok (h : r.Extends r') {q : Call} {reply : Reply} (hq : q.resolves = true)
    (hreply : (r.call q).1 = .ok reply) : (r'.call q).1 = .ok reply := by
  have hmap : ∀ {f : Registry → Except Fault String}, (∀ {new}, f r = .ok new → f r' = .ok new) →
      (r.perform (.name <$> ask f)).1 = .ok reply → (r'.perform (.name <$> ask f)).1 = .ok reply := by
    intro f hf hok
    rw [perform_map_ask] at hok ⊢
    cases hnew : f r with
    | error e =>
      rw [hnew] at hok
      cases hok
    | ok new =>
      rw [hnew] at hok
      rwa [hf hnew]
  cases q with
  | resolveType name => exact hmap h.types hreply
  | resolveField model name => exact hmap h.scopes hreply
  | resolveValue enum name => exact hmap h.scopes hreply
  | resolveRelation model name => exact hmap h.scopes hreply
  | _ => cases hq

end Extends

theorem resolveType_pushModel (he : r.enums.contains name = false) {x new : String}
    (h : r.resolveType x = .ok new) (name' : String) (fields : Table Scope) :
    resolveType { r with models := r.models.push name name', fields := fields } x = .ok new := by
  rw [resolveType_eq_ok, Option.or_eq_some_iff] at h
  rw [resolveType_eq_ok]
  rcases h with h | ⟨hnone, h⟩
  · rw [Table.get?_push_of_some h, Option.some_or]
  · have hx : x ≠ name := by
      rintro rfl
      rw [Table.contains, h] at he
      cases he
    rw [Table.get?_push, hnone, if_neg hx, Option.none_or, Option.none_or, h]

theorem resolveType_pushEnum {x new : String} (h : r.resolveType x = .ok new) (name name' : String)
    (values : Table Scope) :
    resolveType { r with enums := r.enums.push name name', values := values } x = .ok new := by
  rw [resolveType_eq_ok, Option.or_eq_some_iff] at h
  rw [resolveType_eq_ok, Option.or_eq_some_iff]
  exact h.imp_right (.imp_right fun h => Table.get?_push_of_some h name name')

theorem resolveType_put (r : Registry) (shelf : Shelf) (owner : String) (scope : Scope) :
    (r.put shelf owner scope).resolveType = r.resolveType := by
  cases shelf <;> rfl

/-- A call takes back none of the names that were given out. -/
theorem extends_call (hr : r.Orderly) (c : Call) : r.Extends (r.call c).2 := by
  have houtcome := outcome_call r c
  generalize (r.call c).1 = reply, (r.call c).2 = r' at houtcome
  cases houtcome with
  | failed _ e => exact .refl r
  | asked _ reply => exact .refl r
  | there => exact .refl r
  | model hname =>
    rw [Orderly.set_next modelName_inj hr.models hr.fields]
    have he := (Bool.or_eq_false_iff.mp hname).2
    refine .of_found (fun h => resolveType_pushModel he h _ _) fun {shelf} _ _ _ h => ?_
    cases shelf with
    | fields => exact found_push_empty h
    | values => exact h
    | relations => exact h
  | enum hname =>
    rw [Orderly.set_next enumName_inj hr.enums hr.values]
    refine .of_found (fun h => resolveType_pushEnum h _ _ _) fun {shelf} _ _ _ h => ?_
    cases shelf with
    | fields => exact h
    | values => exact found_push_empty h
    | relations => exact h
  | entered hc hscope hnew =>
    refine .of_found (fun h => resolveType_put r _ _ _ ▸ h) fun h => found_put h fun hold => ?_
    rw [hscope.found] at hold
    exact Table.get?_push_of_some hold _ _
  | enteredGlobal hn hscope hnew =>
    refine .of_found id fun h => ?_
    rw [found_globalValues]
    refine found_put h fun hold => ?_
    rw [found_of_get? .values hscope] at hold
    exact Table.get?_push_of_some hold _ _
  | envVar => exact ⟨id, id⟩

theorem extends_after (hr : r.Orderly) (calls : List Call) : r.Extends (r.after calls) :=
  (after_induction (P := fun r' => r'.Orderly ∧ r.Extends r')
    (fun _ c h => ⟨h.1.call c, h.2.trans (extends_call h.1 c)⟩) calls ⟨hr, .refl r⟩).2

/-! ### Failing calls, and what calls gave out -/

theorem call_of_error {c : Call} {e : Fault} (h : (r.call c).1 = .error e) : (r.call c).2 = r := by
  have houtcome := outcome_call r c
  rw [h] at houtcome
  generalize (r.call c).2 = r' at houtcome ⊢
  cases houtcome
  rfl

theorem Call.resolving?_of_entry? {c : Call} (h : c.entry? = some (shelf, owner, name)) :
    c.resolving? = some (.asking shelf owner name) := by
  cases c <;> cases h <;> rfl

theorem call_asking (r : Registry) (shelf : Shelf) (owner name : String) :
    r.call (.asking shelf owner name) = ((r.resolve shelf owner name).map .name, r) := by
  cases shelf <;> exact perform_map_ask _ _

/-- The name that a registration gave out is what the registry then answers for it. -/
theorem resolving_call {c q : Call} {reply : Reply} (hq : c.resolving? = some q)
    (h : (r.call c).1 = .ok reply) : ((r.call c).2.call q).1 = .ok reply := by
  have houtcome := outcome_call r c
  rw [h] at houtcome
  generalize (r.call c).2 = r' at houtcome ⊢
  cases houtcome with
  | asked _ _ hnone =>
    rw [hnone] at hq
    cases hq
  | there hthere =>
    cases hq
    rw [call, Call.step, perform_map_ask]
    exact congrArg (Except.map Reply.name) hthere
  | model hname =>
    cases hq
    rw [call, Call.step, perform_map_ask]
    refine congrArg (Except.map Reply.name) (resolveType_eq_ok.mpr ?_)
    rw [Table.get?_push_self (Bool.or_eq_false_iff.mp hname).1, Option.some_or]
  | enum hname =>
    cases hq
    obtain ⟨hm, he⟩ := Bool.or_eq_false_iff.mp hname
    rw [call, Call.step, perform_map_ask]
    refine congrArg (Except.map Reply.name) (resolveType_eq_ok.mpr ?_)
    rw [Table.get?_eq_none_iff.mpr (Table.contains_eq_false.mp hm), Option.none_or,
      Table.get?_push_self he]
  | entered hc hscope hnew =>
    cases hq.symm.trans (Call.resolving?_of_entry? hc)
    rw [call_asking]
    refine congrArg (Except.map Reply.name) (resolve_eq_ok.mpr ?_)
    rw [found_put_self]
    exact Table.get?_push_self hnew
  | enteredGlobal hn hscope hnew =>
    cases hq
    rw [call, Call.step, perform_map_ask]
    refine congrArg (Except.map Reply.name) (resolve_eq_ok.mpr ?_)
    rw [found_globalValues, found_put_self]
    exact Table.get?_push_self hnew
  | envVar => cases hq

/-- Where a field is known, making sure of it changes nothing. -/
theorem call_ensureField {model name : String} {reply : Reply}
    (h : (r.call (.resolveField model name)).1 = .ok reply) :
    r.call (.ensureField model name) = (.ok reply, r) := by
  rw [call, Call.step, perform_map_ask] at h
  rw [call, Call.step, perform_map, perform_ensureField]
  cases hfield : r.resolveField model name with
  | error e =>
    rw [hfield] at h
    cases h
  | ok new =>
    rw [hfield] at h
    cases h
    rfl

/-- **Names are given out once.** Take a registry that any calls led to, and any call on
it. If the call fails, the registry is as it was and later calls are answered as without
it. No table of relations is empty after it. What the registry answered when it was asked
for a name, it still answers; for a registration that succeeds it answers with the name
given out; and making sure of a field gives the same name again, whatever calls come
between. -/
theorem call_write_once (n : Numbering) (history : List Call) (c : Call) :
    let r := (new n).after history
    let r' := (r.call c).2
    (∀ e, (r.call c).1 = .error e →
      r' = r ∧ ∀ later, r.answers (c :: later) = .error e :: r.answers later) ∧
    (∀ p ∈ r'.relations.entries, p.2.names.size ≠ 0) ∧
    (∀ q reply, q.resolves = true → (r.call q).1 = .ok reply → (r'.call q).1 = .ok reply) ∧
    (∀ q reply, c.resolving? = some q → (r.call c).1 = .ok reply → (r'.call q).1 = .ok reply) ∧
    ∀ model name reply, c = .ensureField model name → (r.call c).1 = .ok reply →
      ∀ later, (r'.after later).call c = (.ok reply, r'.after later) := by
  intro r r'
  have hr : r.Orderly := (orderly_new n).after history
  refine ⟨fun e he => ?_, fun p hp => ?_, fun q reply => (extends_call hr c).call_eq_ok,
    fun q reply => resolving_call, ?_⟩
  · have hr : r' = r := call_of_error he
    refine ⟨hr, fun later => ?_⟩
    rw [answers, he]
    exact congrArg (fun r => Except.error e :: answers r later) hr
  · exact ((hr.call c).relationScopes p hp).2.1
  · rintro model name reply rfl hreply later
    refine call_ensureField ((extends_after (hr.call _) later).call_eq_ok rfl ?_)
    exact resolving_call rfl hreply

end Registry

end Pseudonym

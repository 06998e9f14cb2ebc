/-
# Runs that fail alike

Two ways to compare two runs. `Twin S x y` says that two steps both succeed,
with results related by `S`, or both fail, with one and the same fault.
`Twins` says this of two steps that register names, from any two registries
that hold the same names in the same order (`Registry.SameNames`): the values
of enums may have different numbers there. Every registration and every
look-up is such a step.
-/
import Pseudonym.Proofs.Names.Steps
import Pseudonym.Proofs.Obfuscate.Outcome

namespace Pseudonym

variable {α β γ δ ε : Type}

/-! ### Two steps with one fault -/

/-- Both steps succeed, with results related by `S`, or both fail for the same reason. -/
inductive Twin (S : α → β → Prop) : Except ε α → Except ε β → Prop
  | ok {a : α} {b : β} (h : S a b) : Twin S (.ok a) (.ok b)
  | error (e : ε) : Twin S (.error e) (.error e)

namespace Twin

variable {S S' : α → β → Prop} {T : γ → δ → Prop} {x : Except ε α} {y : Except ε β}

theorem mono (h : Twin S x y) (hS : ∀ a b, S a b → S' a b) : Twin S' x y := by
  cases h with
  | ok h => exact .ok (hS _ _ h)
  | error e => exact .error e

theorem symm (h : Twin S x y) : Twin (fun b a => S a b) y x := by
  cases h with
  | ok h => exact .ok h
  | error e => exact .error e

theorem trans {U : β → γ → Prop} {V : α → γ → Prop} {z : Except ε γ} (h : Twin S x y)
    (h' : Twin U y z) (hV : ∀ a b c, S a b → U b c → V a c) : Twin V x z := by
  cases h with
  | ok h =>
    cases h' with
    | ok h' => exact .ok (hV _ _ _ h h')
  | error e =>
    cases h' with
    | error _ => exact .error e

/-- One step after the other. -/
theorem bind (h : Twin S x y) {f : α → Except ε γ} {g : β → Except ε δ}
    (hf : ∀ a b, S a b → Twin T (f a) (g b)) : Twin T (x >>= f) (y >>= g) := by
  cases h with
  | ok h => exact hf _ _ h
  | error e => exact .error e

/-- Steps after which only the result is wrapped up. -/
theorem map (h : Twin S x y) {f : α → γ} {g : β → δ} (hf : ∀ a b, S a b → T (f a) (g b)) :
    Twin T (x >>= fun a => .ok (f a)) (y >>= fun b => .ok (g b)) :=
  h.bind fun a b hab => .ok (hf a b hab)

theorem locate {x : Except Fault α} {y : Except Fault β} (h : Twin S x y) (line : Nat) :
    Twin S (Fault.locate line x) (Fault.locate line y) := by
  cases h with
  | ok h => exact .ok h
  | error e => exact .error _

/-- Walks along two lists, of which the second is made from the first item by item. -/
theorem mapM {f : α → Except ε γ} {g : β → Except ε δ} {h : α → β} : ∀ {l : List α},
    (∀ a ∈ l, Twin T (f a) (g (h a))) → Twin (List.Forall₂ T) (l.mapM f) ((l.map h).mapM g)
  | [], _ => .ok .nil
  | a :: l, hl => by
    rw [List.map_cons, List.mapM_cons, List.mapM_cons]
    refine (hl a List.mem_cons_self).bind fun c d hcd => ?_
    exact (mapM fun b hb => hl b (List.mem_cons_of_mem a hb)).map fun cs ds hcs => .cons hcd hcs

end Twin

/-! ### Registries with the same names -/

namespace Table

theorem get?_map (f : α → β) (t : Table α) (name : String) :
    (t.map f).get? name = (t.get? name).map f := by
  obtain ⟨entries⟩ := t
  show (entries.map fun e => (e.1, f e.2)).lookup name = (entries.lookup name).map f
  induction entries with
  | nil => rfl
  | cons e entries ih =>
    rw [List.map_cons, List.lookup_cons, List.lookup_cons]
    cases name == e.1 with
    | true => rfl
    | false => exact ih

theorem contains_map (f : α → β) (t : Table α) (name : String) :
    (t.map f).contains name = t.contains name := by
  rw [contains, get?_map, Option.isSome_map, contains]

theorem map_push (f : α → β) (t : Table α) (name : String) (a : α) :
    (t.push name a).map f = (t.map f).push name (f a) := by
  simp [map, push]

theorem map_set (f : α → β) (t : Table α) (name : String) (a : α) :
    (t.set name a).map f = (t.map f).set name (f a) := by
  unfold set
  rw [contains_map]
  split
  · simp only [map, List.map_map]
    congr 1
    refine List.map_congr_left fun e _ => ?_
    by_cases he : e.1 = name <;> simp [he]
  · exact map_push f t name a

end Table

namespace Registry

/-- The same names were registered in the same order. Values may have different numbers. -/
structure SameNames (r r' : Registry) : Prop where
  models : r'.models = r.models
  fields : r'.fields = r.fields
  enums : r'.enums = r.enums
  values : r'.values.map (·.names.names) = r.values.map (·.names.names)
  relations : r'.relations = r.relations
  envVars : r'.envVars = r.envVars

variable {r r' : Registry}

theorem sameNames_new (n n' : Numbering) : (new n).SameNames (new n') :=
  ⟨rfl, rfl, rfl, rfl, rfl, rfl⟩

/-- Both registrations give the same new name, or any two if `free`, and keep the same names. -/
def Registered (free : Bool) (p q : String × Registry) : Prop :=
  (free = false → q.1 = p.1) ∧ p.2.SameNames q.2

namespace SameNames

theorem hasType (h : r.SameNames r') (name : String) : r'.hasType name = r.hasType name := by
  rw [Registry.hasType, h.models, h.enums, Registry.hasType]

theorem isEnum (h : r.SameNames r') (new : String) : r'.isEnum new = r.isEnum new := by
  rw [Registry.isEnum, ← Table.contains_map (·.names.names), h.values, Table.contains_map,
    Registry.isEnum]

theorem isModel (h : r.SameNames r') (new : String) : r'.isModel new = r.isModel new := by
  rw [Registry.isModel, h.fields, Registry.isModel]

theorem resolveType (h : r.SameNames r') (name : String) :
    r'.resolveType name = r.resolveType name := by
  rw [Registry.resolveType, h.models, h.enums, Registry.resolveType]

theorem scopes (h : r.SameNames r') {shelf : Shelf} (hshelf : shelf ≠ .values) :
    r'.scopes shelf = r.scopes shelf := by
  cases shelf with
  | fields => exact h.fields
  | values => exact absurd rfl hshelf
  | relations => exact h.relations

theorem resolve (h : r.SameNames r') (shelf : Shelf) (hshelf : shelf ≠ .values)
    (owner name : String) : r'.resolve shelf owner name = r.resolve shelf owner name := by
  rw [Registry.resolve, found, h.scopes hshelf, Registry.resolve, found]

theorem resolveField (h : r.SameNames r') (model name : String) :
    r'.resolveField model name = r.resolveField model name :=
  h.resolve .fields (by decide) model name

theorem resolveRelation (h : r.SameNames r') (model name : String) :
    r'.resolveRelation model name = r.resolveRelation model name :=
  h.resolve .relations (by decide) model name

/-- The scopes of an enum: there are none, or two with the same names. -/
theorem scope (h : r.SameNames r') (enum : String) :
    (r.values.get? enum = none ∧ r'.values.get? enum = none) ∨
      ∃ t t', r.values.get? enum = some t ∧ r'.values.get? enum = some t' ∧
        t'.names.names = t.names.names := by
  have hscope : (r'.values.get? enum).map (·.names.names) =
      (r.values.get? enum).map (·.names.names) := by
    rw [← Table.get?_map, h.values, Table.get?_map]
  cases ht : r.values.get? enum with
  | none =>
    rw [ht] at hscope
    exact .inl ⟨rfl, Option.map_eq_none_iff.mp hscope⟩
  | some t =>
    rw [ht] at hscope
    obtain ⟨t', ht', hnames⟩ := Option.map_eq_some_iff.mp hscope
    exact .inr ⟨t, t', rfl, ht', hnames⟩

/-- Scopes with the same names have entries for the same names. -/
theorem isSome_of_names {t t' : Table String} (h : t'.names = t.names) (name : String) :
    (t'.get? name).isSome = (t.get? name).isSome := by
  show t'.contains name = t.contains name
  rw [Bool.eq_iff_iff, Table.contains_iff, Table.contains_iff, h]

/-- A value is found in both registries or in none, under whatever number. -/
theorem twin_resolveValue (h : r.SameNames r') (enum name : String) :
    Twin (fun _ _ => True) (r.resolveValue enum name) (r'.resolveValue enum name) := by
  unfold Registry.resolveValue Registry.resolve found Registry.scopes
  obtain ⟨ht, ht'⟩ | ⟨t, t', ht, ht', hnames⟩ := h.scope enum
  · rw [ht, ht']
    exact .error _
  · have hsome := isSome_of_names hnames name
    rw [ht, ht', Option.bind_some, Option.bind_some]
    cases hn : t.names.get? name with
    | none =>
      rw [hn, Option.isSome_none, Option.isSome_eq_false_iff, Option.isNone_iff_eq_none] at hsome
      rw [hsome]
      exact .error _
    | some new =>
      rw [hn, Option.isSome_some, Option.isSome_iff_exists] at hsome
      obtain ⟨new', hn'⟩ := hsome
      rw [hn']
      exact .ok trivial

theorem twin_registerModel (h : r.SameNames r') (name : String) :
    Twin (Registered false) (r.attempt (registerModel name)) (r'.attempt (registerModel name)) := by
  rw [attempt, attempt, perform_registerModel, perform_registerModel, h.hasType]
  split
  · exact .error _
  · exact .ok ⟨fun _ => by rw [h.models], by rw [h.models], by rw [h.fields, h.models], h.enums,
      h.values, h.relations, h.envVars⟩

theorem twin_registerEnum (h : r.SameNames r') (name : String) :
    Twin (Registered false) (r.attempt (registerEnum name)) (r'.attempt (registerEnum name)) := by
  rw [attempt, attempt, perform_registerEnum, perform_registerEnum, h.hasType]
  split
  · exact .error _
  · refine .ok ⟨fun _ => by rw [h.enums], h.models, h.fields, by rw [h.enums], ?_, h.relations,
      h.envVars⟩
    show (r'.values.set _ _).map _ = (r.values.set _ _).map _
    rw [Table.map_set, Table.map_set, h.values, h.enums]

theorem put (h : r.SameNames r') {shelf : Shelf} (hshelf : shelf ≠ .values) (owner : String)
    (scope : Scope) : (r.put shelf owner scope).SameNames (r'.put shelf owner scope) := by
  cases shelf with
  | fields => exact { h with fields := congrArg (Table.set · owner scope) h.fields }
  | values => exact absurd rfl hshelf
  | relations => exact { h with relations := congrArg (Table.set · owner scope) h.relations }

/-- A name goes into a scope that both registries have. -/
theorem twin_enter (h : r.SameNames r') (shelf : Shelf) (hshelf : shelf ≠ .values)
    {x : Step String} {owner name : String} {scope : Scope}
    (hx : r.perform x = r.enter shelf owner name scope)
    (hx' : r'.perform x = r'.enter shelf owner name scope) :
    Twin (Registered false) (r.attempt x) (r'.attempt x) := by
  rw [attempt, attempt, hx, hx', enter, enter]
  split
  · exact .error _
  · exact .ok ⟨fun _ => rfl, h.put hshelf owner _⟩

theorem twin_registerField (h : r.SameNames r') (model name : String) :
    Twin (Registered false) (r.attempt (registerField model name))
      (r'.attempt (registerField model name)) := by
  have hr := perform_registerField r model name
  have hr' := perform_registerField r' model name
  rw [h.fields] at hr'
  cases hscope : r.fields.get? model with
  | none =>
    rw [hscope] at hr hr'
    rw [attempt, attempt, hr, hr']
    exact .error _
  | some scope =>
    rw [hscope] at hr hr'
    exact h.twin_enter .fields (by decide) hr hr'

theorem twin_ensureField (h : r.SameNames r') (model name : String) :
    Twin (Registered false) (r.attempt (ensureField model name))
      (r'.attempt (ensureField model name)) := by
  rw [attempt, attempt, perform_ensureField, perform_ensureField, h.resolveField]
  cases r.resolveField model name with
  | ok new => exact .ok ⟨fun _ => rfl, h⟩
  | error _ => exact h.twin_registerField model name

theorem twin_registerRelation (h : r.SameNames r') (model name : String) :
    Twin (Registered false) (r.attempt (registerRelation model name))
      (r'.attempt (registerRelation model name)) := by
  have hr := perform_registerRelation r model name
  have hr' := perform_registerRelation r' model name
  rw [h.isModel, relationScope, h.relations] at hr'
  cases hmodel : r.isModel model with
  | false =>
    rw [hmodel] at hr hr'
    rw [attempt, attempt, hr, hr']
    exact .error _
  | true =>
    rw [hmodel] at hr hr'
    exact h.twin_enter .relations (by decide) hr hr'

theorem twin_registerValue (h : r.SameNames r') (enum name : String) :
    Twin (Registered true) (r.attempt (registerValue enum name))
      (r'.attempt (registerValue enum name)) := by
  rw [attempt, attempt]
  obtain ⟨ht, ht'⟩ | ⟨t, t', ht, ht', hnames⟩ := h.scope enum
  · rw [perform_registerValue_of_none ht, perform_registerValue_of_none ht']
    exact .error _
  · have hsame : t'.names.contains name = t.names.contains name := isSome_of_names hnames name
    obtain ⟨new, next, count, hr⟩ := perform_registerValue_of_some ht name
    obtain ⟨new', next', count', hr'⟩ := perform_registerValue_of_some ht' name
    rw [hr, hr', hsame]
    split
    · exact .error _
    · refine .ok ⟨nofun, { h with values := ?_ }⟩
      show (r'.values.set _ _).map _ = (r.values.set _ _).map _
      rw [Table.map_set, Table.map_set, h.values, Table.names_push, Table.names_push, hnames]

end SameNames

end Registry

/-- Two steps with one fault, from any two registries with the same names, that leave two such. -/
def Twins (S : α → β → Prop) (x : Naming α) (y : Naming β) : Prop :=
  ∀ r r', r.SameNames r' → Twin (fun p q => S p.1 q.1 ∧ p.2.SameNames q.2) (x r) (y r')

namespace Twins

variable {S : α → β → Prop} {T : γ → δ → Prop} {x : Naming α} {y : Naming β}

theorem pure {a : α} {b : β} (h : S a b) : Twins S (pure a) (pure b) := fun _ _ hr => .ok ⟨h, hr⟩

theorem throw (e : Fault) : Twins S (throw e) (throw e) := fun _ _ _ => .error e

theorem bind (h : Twins S x y) {f : α → Naming γ} {g : β → Naming δ}
    (hf : ∀ a b, S a b → Twins T (f a) (g b)) : Twins T (x >>= f) (y >>= g) :=
  fun r r' hr => (h r r' hr).bind fun p q hpq => hf p.1 q.1 hpq.1 p.2 q.2 hpq.2

theorem map (h : Twins S x y) {f : α → γ} {g : β → δ} (hf : ∀ a b, S a b → T (f a) (g b)) :
    Twins T (f <$> x) (g <$> y) := by
  intro r r' hr
  rw [Naming.map_apply, Naming.map_apply]
  exact (h r r' hr).map fun p q hpq => ⟨hf _ _ hpq.1, hpq.2⟩

theorem ofExcept {x : Except Fault α} {y : Except Fault β} (h : Twin S x y) :
    Twins S (Naming.ofExcept x) (Naming.ofExcept y) := by
  intro r r' hr
  rw [Naming.ofExcept_apply, Naming.ofExcept_apply]
  exact h.map fun a b hab => ⟨hab, hr⟩

theorem mapM {f : α → Naming γ} {g : β → Naming δ} {h : α → β} : ∀ {l : List α},
    (∀ a ∈ l, Twins T (f a) (g (h a))) → Twins (List.Forall₂ T) (l.mapM f) ((l.map h).mapM g)
  | [], _ => pure .nil
  | a :: l, hl => by
    rw [List.map_cons, List.mapM_cons, List.mapM_cons]
    refine (hl a List.mem_cons_self).bind fun c d hcd => ?_
    refine (mapM fun b hb => hl b (List.mem_cons_of_mem a hb)).bind fun cs ds hcs => ?_
    exact pure (.cons hcd hcs)

/-- Environment variables are counted in the same way. -/
theorem numberEnv {f : Nat → α × Nat} {g : Nat → β × Nat}
    (h : ∀ n, S (f n).1 (g n).1 ∧ (g n).2 = (f n).2) :
    Twins S (Naming.numberEnv f) (Naming.numberEnv g) := by
  intro r r' hr
  refine .ok ?_
  rw [hr.envVars]
  exact ⟨(h r.envVars).1, hr.models, hr.fields, hr.enums, hr.values, hr.relations,
    (h r.envVars).2⟩

/-- A registration, for which both faults are put on the same line. -/
theorem register {free : Bool} {x : Registry.Step String} {line line' : Nat} (hline : line' = line)
    (h : ∀ r r' : Registry, r.SameNames r' →
      Twin (Registry.Registered free) (r.attempt x) (r'.attempt x)) :
    Twins (fun a b => free = false → b = a) (Naming.register line x) (Naming.register line' x) := by
  intro r r' hr
  subst hline
  exact (h r r' hr).locate line'

end Twins

end Pseudonym

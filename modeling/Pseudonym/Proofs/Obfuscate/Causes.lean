/-
# Causes of faults

What is known of the fault where a step fails. `FailsWith x E` says that `E`
holds of it; it goes through sequences, walks along a list and the placing of
faults on lines, as `Meets` does for the results.

What goes wrong inside an attribute is first found on no line, and the
attribute as a whole then gives it its own. So a reference that cannot be
resolved is found on the line of the attribute around it, however far down the
attribute it stands, and the cause is one that such an attribute can have
(`Cause.Concerns`). No name is found to be declared twice there, since
references are resolved without registering anything.
-/
import Pseudonym.Proofs.Obfuscate.Declaring
import Pseudonym.Obfuscate.References

namespace Pseudonym

variable {α β σ : Type}

/-- Where the step fails, `E` holds of the fault. -/
def FailsWith (x : Except Fault α) (E : Fault → Prop) : Prop := ∀ e, x = .error e → E e

/-- The fault is on this line, or on none yet, and `E` holds of its cause. -/
def Fault.On (line : Option Nat) (E : Cause → Prop) (e : Fault) : Prop := e.line = line ∧ E e.cause

/-- `D` holds of the noun and the name of a duplicate, `S` where the cause is another one. -/
def Cause.Tells (D : Noun → String → Prop) (S : Prop) : Cause → Prop
  | .duplicate noun name _ => D noun name
  | _ => S

theorem Cause.Tells.mono {D D' : Noun → String → Prop} {S S' : Prop} {cause : Cause}
    (h : cause.Tells D S) (hD : ∀ noun name, D noun name → D' noun name) (hS : S → S') :
    cause.Tells D' S' := by
  cases cause with
  | duplicate noun name scope => exact hD noun name h
  | _ => exact hS h

/-- The signs of the attributes that name something of this kind. -/
def Noun.signs : Noun → List String
  | .field => ["@relation", "@@index", "@@id", "@@unique"]
  | .enumValue => ["@default"]
  | .relation => ["@relation"]
  | _ => []

/-- The cause is one that an attribute with this sign can have by itself. -/
def Cause.Concerns (sign : String) : Cause → Prop
  | .duplicate _ _ _ => False
  | .unresolved noun _ _ => sign ∈ noun.signs
  | .malformed attr _ => attr = sign
  | .unsupportedDefault _ _ => sign = "@default"
  | .inconsistentDefault _ _ => sign = "@default"

/-- What an attribute can have by itself is no duplicate. -/
theorem Cause.Concerns.tells {sign : String} {cause : Cause} (h : cause.Concerns sign)
    (D : Noun → String → Prop) {S : Prop} (hS : S) : cause.Tells D S := by
  cases cause with
  | duplicate noun name scope => exact h.elim
  | _ => exact hS

/-! ### Steps -/

theorem Meets.of_error {x : Except Fault α} {P : Prop} {Q : α → Prop} (h : Meets x P Q) {e : Fault}
    (he : x = .error e) : ¬P := by
  intro hp
  obtain ⟨a, ha, -⟩ := h.1 hp
  rw [he] at ha
  cases ha

/-- A step that always succeeds. -/
theorem Meets.fails {x : Except Fault α} {Q : α → Prop} {E : Fault → Prop} (h : Meets x True Q) :
    FailsWith x E := fun _ he => absurd trivial (h.of_error he)

namespace FailsWith

variable {x : Except Fault α} {E E' : Fault → Prop}

theorem ok {a : α} : FailsWith (.ok a) E := fun _ h => by cases h

theorem error {e : Fault} (h : E e) : FailsWith (.error e : Except Fault α) E := by
  intro _ he
  cases he
  exact h

theorem mono (h : FailsWith x E) (hE : ∀ e, E e → E' e) : FailsWith x E' :=
  fun e he => hE e (h e he)

/-- Where it is known when the step fails, this may be used too. -/
theorem of_meets {P : Prop} {Q : α → Prop} (h : FailsWith x E) (hmeets : Meets x P Q)
    (hE : ∀ e, ¬P → E e → E' e) : FailsWith x E' :=
  fun e he => hE e (hmeets.of_error he) (h e he)

theorem bind {f : α → Except Fault β} (h : FailsWith x E) (hf : ∀ a, x = .ok a → FailsWith (f a) E) :
    FailsWith (x >>= f) E := by
  cases x with
  | error e => exact error (h e rfl)
  | ok a => exact hf a rfl

/-- A step after which only its result is wrapped up. -/
theorem map {f : α → β} (h : FailsWith x E) : FailsWith (x >>= fun a => .ok (f a)) E :=
  h.bind fun _ _ => ok

/-- A fault that has no line yet is put on this one. -/
theorem locate {C : Cause → Prop} (h : FailsWith x (Fault.On none C)) (line : Nat) :
    FailsWith (Fault.locate line x) (Fault.On (some line) C) := by
  cases x with
  | error e =>
    obtain ⟨hline, hcause⟩ := h e rfl
    refine error (e := e.atLine line) ⟨?_, hcause⟩
    rw [Fault.atLine, hline]
    rfl
  | ok a => exact ok

theorem mapM {f : α → Except Fault β} : ∀ {l : List α}, (∀ a ∈ l, FailsWith (f a) E) →
    FailsWith (l.mapM f) E
  | [], _ => ok
  | a :: l, h => by
    rw [List.mapM_cons]
    refine (h a List.mem_cons_self).bind fun _ _ => ?_
    exact (mapM fun b hb => h b (List.mem_cons_of_mem a hb)).map

/-- A walk along a list whose items belong to those of another one. -/
theorem mapM_forall₂ {γ : Type} {R : γ → α → Prop} {f : α → Except Fault β} {l : List γ}
    {l' : List α} (hl : List.Forall₂ R l l') (h : ∀ c ∈ l, ∀ a, R c a → FailsWith (f a) E) :
    FailsWith (l'.mapM f) E := by
  induction hl with
  | nil => exact ok
  | cons hca _ ih =>
    rw [List.mapM_cons]
    refine (h _ List.mem_cons_self _ hca).bind fun _ _ => ?_
    exact (ih fun c hc => h c (List.mem_cons_of_mem _ hc)).map

/-- A walk along a list that registers names. An item that is met in a registry that belongs to
the state before it leaves one that belongs to the state after it, or the walk ends there. -/
theorem mapM_naming {f : α → Naming β} {R : σ → Registry → Prop} {g : σ → α → σ} :
    ∀ {l : List α} {u : σ},
    (∀ before a after r, l = before ++ a :: after → R (before.foldl g u) r →
      FailsWith (f a r) E ∧ ∀ p, f a r = .ok p → R (g (before.foldl g u) a) p.2) →
    ∀ r, R u r → FailsWith (l.mapM f r) E
  | [], _, _, _, _ => ok
  | a :: l, u, h, r, hr => by
    rw [List.mapM_cons, Naming.bind_apply]
    obtain ⟨hfails, hnext⟩ := h [] a l r rfl hr
    refine hfails.bind fun p hp => ?_
    have ih := mapM_naming (l := l) (u := g u a) fun before b after r hl =>
      h (a :: before) b after r (by rw [hl]; rfl)
    exact (ih p.2 (hnext p hp)).map

end FailsWith

theorem Attribute.on_fault (a : Attribute) (sign : String) (defect : Defect) :
    (a.fault sign defect).On (some a.span.line) (Cause.Concerns sign) := ⟨rfl, rfl⟩

/-! ### References -/

namespace Registry

variable (r : Registry)

theorem fails_resolveType (name : String) :
    FailsWith (r.resolveType name) (Fault.On none (· = .unresolved .modelOrEnum name none)) := by
  unfold resolveType
  split
  · exact .ok
  · exact .error ⟨rfl, rfl⟩

theorem fails_resolve (shelf : Shelf) (owner name : String) {sign : String}
    (hsign : sign ∈ shelf.noun.signs) :
    FailsWith (r.resolve shelf owner name) (Fault.On none (Cause.Concerns sign)) := by
  unfold resolve
  split
  · exact .ok
  · exact .error ⟨rfl, hsign⟩

end Registry

variable (r : Registry)

theorem Value.fails_resolveFields {sign : String} (hsign : sign ∈ Noun.field.signs) (model : String)
    (v : Value) : FailsWith (v.resolveFields r sign model) (Fault.On none (Cause.Concerns sign)) := by
  cases v with
  | array items =>
    refine (FailsWith.mapM fun item _ => ?_).map
    unfold resolveItem
    split
    · exact (r.fails_resolve .fields model _ hsign).map
    · exact .error ⟨rfl, rfl⟩
    · exact .error ⟨rfl, rfl⟩
  | _ => exact .error ⟨rfl, rfl⟩

namespace FieldSite

variable (site : FieldSite)

theorem fails_constantDefault (segments : List String) :
    FailsWith (site.constantDefault r segments) (Fault.On none (Cause.Concerns "@default")) := by
  unfold constantDefault
  split
  · exact .error ⟨rfl, rfl⟩
  · split
    · exact (r.fails_resolve .values _ _ (List.mem_singleton_self _)).map
    · exact .error ⟨rfl, rfl⟩

theorem fails_itemDefault (v : Value) :
    FailsWith (site.itemDefault r v) (Fault.On none (Cause.Concerns "@default")) := by
  have hliteral : FailsWith site.literalDefault (Fault.On none (Cause.Concerns "@default")) := by
    unfold literalDefault
    split
    · exact .ok
    · exact .error ⟨rfl, rfl⟩
  cases v with
  | path segments => exact site.fails_constantDefault r segments
  | call name args => exact .ok
  | array items => exact .error ⟨rfl, rfl⟩
  | _ => exact hliteral

theorem fails_default (v : Value) :
    FailsWith (site.default r v) (Fault.On none (Cause.Concerns "@default")) := by
  unfold default
  split
  · exact (FailsWith.mapM fun item _ => site.fails_itemDefault r item).map
  · exact site.fails_itemDefault r _

end FieldSite

namespace Attribute

variable (a : Attribute)

theorem fails_resolveDefault (site : FieldSite) :
    FailsWith (a.resolveDefault r site) (Fault.On (some a.span.line) (Cause.Concerns "@default")) := by
  unfold resolveDefault
  split
  · exact .error (a.on_fault _ _)
  · exact ((site.fails_default r _).map).locate _

theorem fails_resolveRelationList (site : FieldSite) (name model : String) :
    FailsWith (a.resolveRelationList r site name model)
      (Fault.On (some a.span.line) (Cause.Concerns "@relation")) := by
  unfold resolveRelationList
  split
  · exact .error (a.on_fault _ _)
  · exact ((Value.fails_resolveFields r (by decide) _ _).map).locate _

/-- Replacing a list leaves the attribute where it is. -/
theorem span_resolveRelationList {site : FieldSite} {name model : String} {a b : Attribute}
    (h : a.resolveRelationList r site name model = .ok b) : b.span = a.span := by
  unfold resolveRelationList at h
  split at h
  · cases h
  · rename_i value _
    cases hlist : value.resolveFields r "@relation" model with
    | error e =>
      rw [hlist] at h
      cases h
    | ok list =>
      rw [hlist] at h
      cases h
      rfl

theorem fails_resolveRelationLists (site : FieldSite) :
    FailsWith (a.resolveRelationLists r site)
      (Fault.On (some a.span.line) (Cause.Concerns "@relation")) := by
  unfold resolveRelationLists
  split
  · exact .error (a.on_fault _ _)
  · refine (a.fails_resolveRelationList r site _ _).bind fun b hb => ?_
    rw [← span_resolveRelationList r hb]
    exact b.fails_resolveRelationList r site _ _

theorem fails_renameForeignKey (site : FieldSite) :
    FailsWith (a.renameForeignKey site) (Fault.On (some a.span.line) (Cause.Concerns "@relation")) ∧
      ∀ b, a.renameForeignKey site = .ok b → b.span = a.span := by
  unfold renameForeignKey
  split
  · exact ⟨.ok, fun b hb => by cases hb; rfl⟩
  · split
    · exact ⟨.ok, fun b hb => by cases hb; rfl⟩
    · exact ⟨.error (a.on_fault _ _), fun b hb => by cases hb⟩

theorem fails_resolveRelation (site : FieldSite) :
    FailsWith (a.resolveRelation r site) (Fault.On (some a.span.line) (Cause.Concerns "@relation")) := by
  unfold resolveRelation
  split
  · exact .error (a.on_fault _ _)
  · obtain ⟨hkey, hspan⟩ := a.fails_renameForeignKey site
    refine hkey.bind fun b hb => ?_
    rw [← hspan b hb]
    split
    · exact b.fails_resolveRelationLists r site
    · split
      · exact ((r.fails_resolve .relations _ _ (List.mem_singleton_self _)).map).locate _
      · exact b.fails_resolveRelationLists r site

/-- The sign of an attribute is that of its name. -/
theorem sign_of_is {a : Attribute} {name : String} (h : a.is name = true) (mark : String) :
    mark ++ a.name.name = mark ++ name := by
  rw [beq_iff_eq.mp h]

theorem fails_resolveOnField (site : FieldSite) : FailsWith (a.resolveOnField r site)
    (Fault.On (some a.span.line) (Cause.Concerns ("@" ++ a.name.name))) := by
  unfold resolveOnField
  split
  · rename_i hd
    rw [sign_of_is hd]
    exact a.fails_resolveDefault r site
  · split
    · rename_i hr
      rw [sign_of_is hr]
      exact a.fails_resolveRelation r site
    · exact .ok

theorem fails_resolveFirst {sign : String} (hsign : sign ∈ Noun.field.signs) (model : String) :
    FailsWith (a.resolveFirst r sign model) (Fault.On (some a.span.line) (Cause.Concerns sign)) ∧
      ∀ b, a.resolveFirst r sign model = .ok b → b.span = a.span := by
  unfold resolveFirst
  split
  · exact ⟨.error (a.on_fault _ _), fun b hb => by cases hb⟩
  · rename_i first rest _
    refine ⟨((Value.fails_resolveFields r hsign _ _).map).locate _, fun b hb => ?_⟩
    cases hlist : first.value.resolveFields r sign model with
    | error e =>
      rw [hlist] at hb
      cases hb
    | ok list =>
      rw [hlist] at hb
      cases hb
      rfl

theorem fails_renameIndex (model : String) (number : Nat) : FailsWith (a.renameIndex model number)
    (Fault.On (some a.span.line) (Cause.Concerns "@@index")) := by
  unfold renameIndex
  split
  · split
    · split
      · exact .ok
      · exact .error (a.on_fault _ _)
    · exact .error (a.on_fault _ _)
  · exact .error (a.on_fault _ _)

theorem fails_resolveIndex (model : String) (number : Nat) :
    FailsWith (a.resolveIndex r model number) (Fault.On (some a.span.line) (Cause.Concerns "@@index")) := by
  have hsign : "@@index" ∈ Noun.field.signs := by decide
  obtain ⟨hfirst, hspan⟩ := a.fails_resolveFirst r hsign model
  refine hfirst.bind fun b hb => ?_
  rw [← hspan b hb]
  exact b.fails_renameIndex model number

theorem fails_resolveUnique (model : String) : FailsWith (a.resolveUnique r model)
    (Fault.On (some a.span.line) (Cause.Concerns "@@unique")) := by
  refine ((FailsWith.mapM fun arg _ => ?_).map).locate _
  unfold resolveKeyArg
  split
  · exact (Value.fails_resolveFields r (by decide) _ _).map
  · exact .ok

theorem fails_resolveOnModel (model : String) (number : Nat) :
    FailsWith (a.resolveOnModel r model number)
      (Fault.On (some a.span.line) (Cause.Concerns ("@@" ++ a.name.name))) := by
  unfold resolveOnModel
  split
  · rename_i hi
    rw [sign_of_is hi]
    exact a.fails_resolveIndex r model number
  · split
    · rename_i hd
      rw [sign_of_is hd]
      exact (a.fails_resolveFirst r (by decide) model).1
    · split
      · rename_i hu
        rw [sign_of_is hu]
        exact a.fails_resolveUnique r model
      · exact .ok

end Attribute

end Pseudonym

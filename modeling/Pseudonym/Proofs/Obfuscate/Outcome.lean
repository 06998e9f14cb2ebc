/-
# Outcomes

Two ways to speak about a step that may fail. `Meets x P Q` says when the step
succeeds and with what: exactly where `P` holds, and then with a result of
which `Q` holds. `Alike S x y` compares two steps: both succeed, with results
related by `S`, or both fail, with faults that differ at most in the names they
quote. `Follows` is `Alike` for steps that register names. All go through
sequences, walks along a list and the placing of faults on lines.
-/
import Pseudonym.Obfuscate.Declarations
import Pseudonym.Proofs.Lists

namespace Pseudonym

variable {α β γ δ ε σ : Type}

/-! ### Steps in a registry -/

namespace Naming

theorem pure_apply (a : α) (r : Registry) : (pure a : Naming α) r = .ok (a, r) := rfl

theorem bind_apply (x : Naming α) (f : α → Naming β) (r : Registry) :
    (x >>= f) r = x r >>= fun p => f p.1 p.2 := rfl

theorem map_apply (f : α → β) (x : Naming α) (r : Registry) :
    (f <$> x) r = x r >>= fun p => .ok (f p.1, p.2) := rfl

theorem numberEnv_bind (f : Nat → α × Nat) (g : α → Naming β) (r : Registry) :
    (numberEnv f >>= g) r = g (f r.envVars).1 { r with envVars := (f r.envVars).2 } := rfl

theorem throw_apply (e : Fault) (r : Registry) : (throw e : Naming α) r = .error e := rfl

theorem ofExcept_apply (x : Except Fault α) (r : Registry) :
    ofExcept x r = x >>= fun a => .ok (a, r) := by
  cases x <;> rfl

end Naming

/-! ### When a step succeeds, and with what -/

theorem bind_ok {x : Except ε α} {f : α → Except ε β} {b : β} (h : x >>= f = .ok b) :
    ∃ a, x = .ok a ∧ f a = .ok b := by
  cases x with
  | error e => cases h
  | ok a => exact ⟨a, rfl, h⟩

/-- What can be checked of a result. -/
theorem exists_ok {x : Except ε α} {P : α → Prop} [DecidablePred P]
    (h : x.toOption.any (fun a => decide (P a)) = true) : ∃ a, x = .ok a ∧ P a := by
  cases x with
  | error e => cases h
  | ok a => exact ⟨a, rfl, of_decide_eq_true h⟩

/-- The step succeeds exactly if `P` holds, and then its result has the property `Q`. -/
def Meets (x : Except ε α) (P : Prop) (Q : α → Prop) : Prop :=
  (P → ∃ a, x = .ok a ∧ Q a) ∧ (¬P → ∃ e, x = .error e)

namespace Meets

variable {x : Except ε α} {P P' : Prop} {Q Q' : α → Prop}

theorem ok {a : α} (hp : P) (hq : Q a) : Meets (.ok a : Except ε α) P Q :=
  ⟨fun _ => ⟨a, rfl, hq⟩, fun hn => absurd hp hn⟩

theorem error (e : ε) (hp : ¬P) : Meets (.error e) P Q :=
  ⟨fun h => absurd h hp, fun _ => ⟨e, rfl⟩⟩

/-- Another way to say when, and with what. -/
theorem congr (h : Meets x P Q) (hP : P ↔ P') (hQ : P → ∀ a, Q a → Q' a) : Meets x P' Q' := by
  refine ⟨fun hp => ?_, fun hp => h.2 fun hp' => hp (hP.mp hp')⟩
  obtain ⟨a, ha, hq⟩ := h.1 (hP.mpr hp)
  exact ⟨a, ha, hQ (hP.mpr hp) a hq⟩

theorem of_ok (h : Meets x P Q) {a : α} (ha : x = .ok a) : P ∧ Q a := by
  by_cases hp : P
  · obtain ⟨b, hb, hq⟩ := h.1 hp
    rw [ha] at hb
    cases hb
    exact ⟨hp, hq⟩
  · obtain ⟨e, he⟩ := h.2 hp
    rw [ha] at he
    cases he

theorem iff (h : Meets x P Q) : (∃ a, x = .ok a) ↔ P := by
  constructor
  · rintro ⟨a, ha⟩
    exact (h.of_ok ha).1
  · intro hp
    obtain ⟨a, ha, -⟩ := h.1 hp
    exact ⟨a, ha⟩

/-- One step after the other. -/
theorem bind (h : Meets x P Q) {f : α → Except ε β} {S : β → Prop}
    (hf : P → ∀ a, Q a → Meets (f a) P' S) : Meets (x >>= f) (P ∧ P') S := by
  by_cases hp : P
  · obtain ⟨a, rfl, hq⟩ := h.1 hp
    exact (hf hp a hq).congr (by simp [hp]) fun _ _ => id
  · obtain ⟨e, rfl⟩ := h.2 hp
    exact ⟨fun hq => absurd hq.1 hp, fun _ => ⟨e, rfl⟩⟩

/-- A step after which only its result is wrapped up. -/
theorem map (h : Meets x P Q) {f : α → β} {S : β → Prop} (hf : P → ∀ a, Q a → S (f a)) :
    Meets (x >>= fun a => .ok (f a)) P S :=
  (h.bind fun hp a hq => ok trivial (hf hp a hq)).congr (by simp) fun _ _ => id

theorem locate {x : Except Fault α} (h : Meets x P Q) (line : Nat) : Meets (Fault.locate line x) P Q := by
  refine ⟨fun hp => ?_, fun hp => ?_⟩
  · obtain ⟨a, rfl, hq⟩ := h.1 hp
    exact ⟨a, rfl, hq⟩
  · obtain ⟨e, rfl⟩ := h.2 hp
    exact ⟨e.atLine line, rfl⟩

/-- A walk along a list in which the steps do not depend on one another. -/
theorem mapM {f : α → Except ε β} {P : α → Prop} {Q : α → β → Prop} : ∀ {l : List α},
    (∀ a ∈ l, Meets (f a) (P a) (Q a)) → Meets (l.mapM f) (∀ a ∈ l, P a) (List.Forall₂ Q l)
  | [], _ => ok (by simp) .nil
  | a :: l, h => by
    rw [List.mapM_cons]
    have ih := mapM fun b hb => h b (List.mem_cons_of_mem a hb)
    refine ((h a List.mem_cons_self).bind fun _ b hb => ih.map fun _ bs hbs => ?_).congr
      (by simp) fun _ _ => id
    exact List.Forall₂.cons hb hbs

/-- The same along a list whose items stand for those of another list. -/
theorem mapM_forall₂ {R : α → γ → Prop} {f : γ → Except ε β} {P : α → Prop} {Q : α → β → Prop}
    {l : List α} {l' : List γ} (hl : List.Forall₂ R l l')
    (h : ∀ a ∈ l, ∀ c, R a c → Meets (f c) (P a) (Q a)) :
    Meets (l'.mapM f) (∀ a ∈ l, P a) (List.Forall₂ Q l) := by
  induction hl with
  | nil => exact ok (by simp) .nil
  | cons hac _ ih =>
    rw [List.mapM_cons]
    have hrest := ih fun b hb => h b (List.mem_cons_of_mem _ hb)
    refine ((h _ List.mem_cons_self _ hac).bind fun _ b hb => hrest.map fun _ bs hbs => ?_).congr
      (by simp) fun _ _ => id
    exact List.Forall₂.cons hb hbs

/-- The same for what the results have in common with the items. -/
theorem mapM_map {f : α → Except ε β} {P : α → Prop} {k : α → γ} {j : β → γ} {l : List α}
    (h : ∀ a ∈ l, Meets (f a) (P a) fun b => j b = k a) :
    Meets (l.mapM f) (∀ a ∈ l, P a) fun bs => bs.map j = l.map k := by
  exact (mapM h).congr Iff.rfl fun _ bs hbs => map_eq_of_forall₂ hbs

end Meets

/-- What holds of each item of a list, seen from the state that the items before it lead to. -/
def Along (next : σ → α → σ) (P : σ → α → Prop) : σ → List α → Prop
  | _, [] => True
  | u, a :: l => P u a ∧ Along next P (next u a) l

theorem along_iff {next : σ → α → σ} {P : σ → α → Prop} : ∀ {u : σ} {l : List α},
    Along next P u l ↔ ∀ before a after, l = before ++ a :: after → P (before.foldl next u) a
  | u, [] => by simp [Along]
  | u, a :: l => by
    rw [Along, along_iff]
    constructor
    · rintro ⟨h1, h2⟩ before b after h
      cases before with
      | nil =>
        cases h
        exact h1
      | cons c before =>
        cases h
        exact h2 before b after rfl
    · exact fun h => ⟨h [] a l rfl, fun before b after hl => h (a :: before) b after (by rw [hl]; rfl)⟩

theorem along_and {next : σ → α → σ} {P P' : σ → α → Prop} : ∀ {u : σ} {l : List α},
    Along next (fun u a => P u a ∧ P' u a) u l ↔ Along next P u l ∧ Along next P' u l
  | _, [] => by simp [Along]
  | u, a :: l => by
    rw [Along, Along, Along, along_and]
    exact and_and_and_comm

/-- What does not depend on the items before. -/
theorem along_forall {next : σ → α → σ} {P : α → Prop} : ∀ {u : σ} {l : List α},
    Along next (fun _ a => P a) u l ↔ ∀ a ∈ l, P a
  | _, [] => by simp [Along]
  | u, a :: l => by rw [Along, along_forall, List.forall_mem_cons]

/-- A walk along a list that registers names: every item is met in a registry that belongs to
the state that the items before it lead to. -/
theorem Meets.mapM_naming {f : α → Naming β} {R : σ → Registry → Prop} {next : σ → α → σ}
    {P : σ → α → Prop} {Q : α → β → Prop} : ∀ {l : List α} {u : σ},
    (∀ before a after r, l = before ++ a :: after → R (before.foldl next u) r →
      Meets (f a r) (P (before.foldl next u) a)
        fun p => Q a p.1 ∧ R (next (before.foldl next u) a) p.2) →
    ∀ r, R u r → Meets (l.mapM f r) (Along next P u l)
      fun p => List.Forall₂ Q l p.1 ∧ R (l.foldl next u) p.2
  | [], _, _, _, hr => Meets.ok trivial ⟨.nil, hr⟩
  | a :: l, u, h, r, hr => by
    rw [List.mapM_cons, Naming.bind_apply]
    refine (h [] a l r rfl hr).bind fun _ p hp => ?_
    have ih := mapM_naming (l := l) (u := next u a) fun before b after r hl =>
      h (a :: before) b after r (by rw [hl]; rfl)
    exact (ih p.2 hp.2).map fun _ q hq => ⟨.cons hp.1 hq.1, hq.2⟩

/-- A walk of steps that all succeed and keep a property of the registry. -/
theorem Meets.mapM_keeping {f : α → Naming β} {R : Registry → Prop}
    (h : ∀ a r, R r → Meets (f a r) True fun p => R p.2) : ∀ (l : List α) {r : Registry}, R r →
    Meets (l.mapM f r) True fun p => R p.2
  | [], _, hr => Meets.ok trivial hr
  | a :: l, r, hr => by
    rw [List.mapM_cons, Naming.bind_apply]
    refine ((h a r hr).bind fun _ p hp => ?_).congr (true_and _).to_iff fun _ _ => id
    exact (mapM_keeping h l hp).map fun _ q hq => hq

/-! ### Two steps that end alike -/

/-- The cause without the name that it quotes. Scopes are new names and stay. -/
def Cause.nameless : Cause → Cause
  | .duplicate noun _ scope => .duplicate noun "" scope
  | .unresolved noun _ scope => .unresolved noun "" scope
  | cause => cause

/-- The fault without the name that it quotes: its sort, its scope and its line. -/
def Fault.nameless (f : Fault) : Fault := { f with cause := f.cause.nameless }

theorem Fault.nameless_atLine (f : Fault) (line : Nat) :
    (f.atLine line).nameless = f.nameless.atLine line := rfl

/-- Both steps succeed, with results related by `S`, or both fail, with the same fault up to
the name it quotes. -/
def Alike (S : α → β → Prop) : Except Fault α → Except Fault β → Prop
  | .ok a, .ok b => S a b
  | .error e, .error f => e.nameless = f.nameless
  | .ok _, .error _ => False
  | .error _, .ok _ => False

namespace Alike

variable {S : α → β → Prop} {T : γ → δ → Prop} {x : Except Fault α} {y : Except Fault β}

theorem refl (x : Except Fault α) : Alike Eq x x := by
  cases x <;> exact rfl

theorem of_eq {x y : Except Fault α} (h : x = y) : Alike Eq x y := h ▸ refl x

theorem mono {S' : α → β → Prop} (h : Alike S x y) (hS : ∀ a b, S a b → S' a b) :
    Alike S' x y := by
  cases x <;> cases y
  · exact h
  · exact h
  · exact h
  · exact hS _ _ h

theorem trans {U : β → γ → Prop} {V : α → γ → Prop} {z : Except Fault γ} (h : Alike S x y)
    (h' : Alike U y z) (hV : ∀ a b c, S a b → U b c → V a c) : Alike V x z := by
  cases x <;> cases y <;> cases z
  · exact Eq.trans h h'
  · exact h'
  · exact h.elim
  · exact h.elim
  · exact h.elim
  · exact h.elim
  · exact h'
  · exact hV _ _ _ h h'

theorem symm (h : Alike S x y) : Alike (fun b a => S a b) y x := by
  cases x <;> cases y
  · exact Eq.symm h
  · exact h
  · exact h
  · exact h

theorem bind (h : Alike S x y) {f : α → Except Fault γ} {g : β → Except Fault δ}
    (hf : ∀ a b, S a b → Alike T (f a) (g b)) : Alike T (x >>= f) (y >>= g) := by
  cases x <;> cases y
  · exact h
  · exact h.elim
  · exact h.elim
  · exact hf _ _ h

theorem locate (h : Alike S x y) (line : Nat) :
    Alike S (Fault.locate line x) (Fault.locate line y) := by
  cases x <;> cases y
  · show (Fault.atLine _ _).nameless = (Fault.atLine _ _).nameless
    rw [Fault.nameless_atLine, Fault.nameless_atLine]
    exact congrArg (Fault.atLine · line) h
  · exact h
  · exact h
  · exact h

theorem ite {c d : Prop} [Decidable c] [Decidable d] {x' : Except Fault α} {y' : Except Fault β}
    (hc : c ↔ d) (h : c → Alike S x y) (h' : ¬c → Alike S x' y') :
    Alike S (if c then x else x') (if d then y else y') := by
  by_cases hx : c
  · rw [if_pos hx, if_pos (hc.mp hx)]
    exact h hx
  · rw [if_neg hx, if_neg fun hd => hx (hc.mpr hd)]
    exact h' hx

/-- Walks along two lists, of which the second is made from the first item by item. -/
theorem mapM_eq {f : α → Except Fault γ} {g : β → Except Fault γ} {h : α → β} : ∀ {l : List α},
    (∀ a ∈ l, Alike Eq (f a) (g (h a))) → Alike Eq (l.mapM f) ((l.map h).mapM g)
  | [], _ => rfl
  | a :: l, hl => by
    rw [List.map_cons, List.mapM_cons, List.mapM_cons]
    refine (hl a List.mem_cons_self).bind fun c d hcd => ?_
    refine (mapM_eq fun b hb => hl b (List.mem_cons_of_mem a hb)).bind fun cs ds hcs => ?_
    show c :: cs = d :: ds
    rw [hcd, hcs]

end Alike

/-- Two steps that end alike from any two registries related by `R`, and leave two such. -/
def Follows (R : Registry → Registry → Prop) (S : α → β → Prop) (x : Naming α) (y : Naming β) :
    Prop :=
  ∀ r r', R r r' → Alike (fun p q => S p.1 q.1 ∧ R p.2 q.2) (x r) (y r')

namespace Follows

variable {R : Registry → Registry → Prop} {S : α → β → Prop} {T : γ → δ → Prop} {x : Naming α}
  {y : Naming β}

theorem pure {a : α} {b : β} (h : S a b) : Follows R S (pure a) (pure b) := fun _ _ hr => ⟨h, hr⟩

theorem throw {e f : Fault} (h : e.nameless = f.nameless) : Follows R S (throw e) (throw f) :=
  fun _ _ _ => h

theorem bind (h : Follows R S x y) {f : α → Naming γ} {g : β → Naming δ}
    (hf : ∀ a b, S a b → Follows R T (f a) (g b)) : Follows R T (x >>= f) (y >>= g) := by
  intro r r' hr
  exact (h r r' hr).bind fun p q hpq => hf p.1 q.1 hpq.1 p.2 q.2 hpq.2

theorem map (h : Follows R S x y) {f : α → γ} {g : β → δ} (hf : ∀ a b, S a b → T (f a) (g b)) :
    Follows R T (f <$> x) (g <$> y) := by
  intro r r' hr
  rw [Naming.map_apply, Naming.map_apply]
  exact (h r r' hr).bind fun p q hpq => ⟨hf _ _ hpq.1, hpq.2⟩

theorem ofExcept {x : Except Fault α} {y : Except Fault β} (h : Alike S x y) :
    Follows R S (Naming.ofExcept x) (Naming.ofExcept y) := by
  intro r r' hr
  rw [Naming.ofExcept_apply, Naming.ofExcept_apply]
  exact h.bind fun a b hab => ⟨hab, hr⟩

theorem ite {c d : Prop} [Decidable c] [Decidable d] {x' : Naming α} {y' : Naming β}
    (hc : c ↔ d) (h : c → Follows R S x y) (h' : ¬c → Follows R S x' y') :
    Follows R S (if c then x else x') (if d then y else y') := by
  by_cases hx : c
  · rw [if_pos hx, if_pos (hc.mp hx)]
    exact h hx
  · rw [if_neg hx, if_neg fun hd => hx (hc.mpr hd)]
    exact h' hx

theorem mapM {f : α → Naming γ} {g : β → Naming δ} {h : α → β} {k : γ → ε} {j : δ → ε} :
    ∀ {l : List α}, (∀ a ∈ l, Follows R (fun c d => k c = j d) (f a) (g (h a))) →
    Follows R (fun cs ds => cs.map k = ds.map j) (l.mapM f) ((l.map h).mapM g)
  | [], _ => pure rfl
  | a :: l, hl => by
    rw [List.map_cons, List.mapM_cons, List.mapM_cons]
    refine (hl a List.mem_cons_self).bind fun c d hcd => ?_
    refine (mapM fun b hb => hl b (List.mem_cons_of_mem a hb)).bind fun cs ds hcs => ?_
    exact pure (by rw [List.map_cons, List.map_cons, hcd, hcs])

theorem mapM_eq {f : α → Naming γ} {g : β → Naming γ} {h : α → β} {l : List α}
    (hl : ∀ a ∈ l, Follows R Eq (f a) (g (h a))) :
    Follows R Eq (l.mapM f) ((l.map h).mapM g) := by
  have := mapM (k := id) (j := id) hl
  simpa only [List.map_id] using this

end Follows

end Pseudonym

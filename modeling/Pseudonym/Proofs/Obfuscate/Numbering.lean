/-
# Environment variables through a schema

The numbers of environment variables run on through a whole schema, in the
order of the text. Numbering them is a walk of its own, that does nothing
else: what a change leaves alone can be numbered before the change or after
it, and what has its numbers keeps them when it is numbered again.
-/
import Mathlib.Data.List.Forall2
import Pseudonym.Proofs.Obfuscate.Unread

namespace Pseudonym

/-! ### Numbers along a list -/

section Along

variable {α β γ δ : Type} {f : Nat → α → γ × Nat} {g : Nat → β → δ × Nat}

/-- Treats the items of a list one after the other, each with the number that the one before it
leaves. -/
def numberAlong (f : Nat → α → γ × Nat) : Nat → List α → List γ × Nat
  | n, [] => ([], n)
  | n, a :: l => ((f n a).1 :: (numberAlong f (f n a).2 l).1, (numberAlong f (f n a).2 l).2)

/-- Items that a change drops use up no number. -/
theorem numberAlong_filterMap {h : α → Option β} {k : γ → Option δ}
    (hnone : ∀ n a, h a = none → k (f n a).1 = none ∧ (f n a).2 = n)
    (hsome : ∀ n a b, h a = some b → k (f n a).1 = some (g n b).1 ∧ (f n a).2 = (g n b).2) :
    ∀ (n : Nat) (l : List α), numberAlong g n (l.filterMap h) =
      ((numberAlong f n l).1.filterMap k, (numberAlong f n l).2)
  | _, [] => rfl
  | n, a :: l => by
    cases ha : h a with
    | none =>
      obtain ⟨h1, h2⟩ := hnone n a ha
      rw [List.filterMap_cons_none ha, numberAlong_filterMap hnone hsome n l, numberAlong,
        List.filterMap_cons_none h1, h2]
    | some b =>
      obtain ⟨h1, h2⟩ := hsome n a b ha
      rw [List.filterMap_cons_some ha, numberAlong, numberAlong_filterMap hnone hsome _ l, numberAlong,
        List.filterMap_cons_some h1, h2]

theorem numberAlong_map {h : α → β} {k : γ → δ} (hk : ∀ n a, g n (h a) = (k (f n a).1, (f n a).2))
    (n : Nat) (l : List α) :
    numberAlong g n (l.map h) = ((numberAlong f n l).1.map k, (numberAlong f n l).2) := by
  rw [← List.filterMap_eq_map, ← List.filterMap_eq_map]
  refine numberAlong_filterMap (fun n a ha => by cases ha) (fun n a b hb => ?_) n l
  cases hb
  simp [hk]

theorem forall₂_numberAlong : ∀ (n : Nat) (l : List α),
    List.Forall₂ (fun a c => ∃ m, c = (f m a).1) l (numberAlong f n l).1
  | _, [] => .nil
  | n, a :: l => .cons ⟨n, rfl⟩ (forall₂_numberAlong (f n a).2 l)

theorem numberAlong_twice {f : Nat → α → α × Nat} (hf : ∀ n a, f n (f n a).1 = f n a) :
    ∀ (n : Nat) (l : List α), numberAlong f n (numberAlong f n l).1 = numberAlong f n l
  | _, [] => rfl
  | n, a :: l => by
    simp only [numberAlong, hf]
    rw [numberAlong_twice hf]

/-- A second walk that does not see what the first one did. -/
theorem numberAlong_again {h : γ → β} {k : α → β} : ∀ (n : Nat) (l : List α),
    (∀ n, ∀ a ∈ l, g n (h (f n a).1) = g n (k a) ∧ (f n a).2 = (g n (k a)).2) →
    numberAlong g n ((numberAlong f n l).1.map h) = numberAlong g n (l.map k)
  | _, [], _ => rfl
  | n, a :: l, hg => by
    obtain ⟨h1, h2⟩ := hg n a List.mem_cons_self
    have ih := numberAlong_again (f n a).2 l fun m b hb => hg m b (List.mem_cons_of_mem a hb)
    simp only [numberAlong, List.map_cons, h1]
    rw [← h2, ih]

theorem numberAlong_map_of_mem {h : α → β} {k : γ → δ} : ∀ (n : Nat) (l : List α),
    (∀ n, ∀ a ∈ l, g n (h a) = (k (f n a).1, (f n a).2)) →
    numberAlong g n (l.map h) = ((numberAlong f n l).1.map k, (numberAlong f n l).2)
  | _, [], _ => rfl
  | n, a :: l, hk => by
    have ih := numberAlong_map_of_mem (f n a).2 l fun m b hb => hk m b (List.mem_cons_of_mem a hb)
    simp only [List.map_cons, numberAlong, hk n a List.mem_cons_self, ih]

/-- Two walks that do not see each other can be made in either order. -/
theorem numberAlong_comm {f g : Nat → α → α × Nat} : ∀ (i k : Nat) (l : List α),
    (∀ i k, ∀ a ∈ l, g k (f i a).1 = ((f i (g k a).1).1, (g k a).2) ∧
      (f i (g k a).1).2 = (f i a).2) →
    numberAlong g k (numberAlong f i l).1 =
      ((numberAlong f i (numberAlong g k l).1).1, (numberAlong g k l).2)
  | _, _, [], _ => rfl
  | i, k, a :: l, hcomm => by
    obtain ⟨h1, h2⟩ := hcomm i k a List.mem_cons_self
    have ih := numberAlong_comm (f i a).2 (g k a).2 l fun i k b hb =>
      hcomm i k b (List.mem_cons_of_mem a hb)
    simp only [numberAlong, h1, h2, ih]

theorem numberAlong_append : ∀ (n : Nat) (l l' : List α),
    numberAlong f n (l ++ l') =
      ((numberAlong f n l).1 ++ (numberAlong f (numberAlong f n l).2 l').1,
        (numberAlong f (numberAlong f n l).2 l').2)
  | _, [], _ => rfl
  | n, a :: l, l' => by
    rw [List.cons_append, numberAlong, numberAlong_append (f n a).2 l l']
    rfl

/-- An item is treated with the number that those before it leave. -/
theorem getElem?_numberAlong (n : Nat) (l : List α) (i : Nat) : (numberAlong f n l).1[i]? =
    l[i]?.map fun a => (f (numberAlong f n (l.take i)).2 a).1 := by
  induction l generalizing n i with
  | nil => rfl
  | cons a l ih =>
    cases i with
    | zero => rfl
    | succ i => exact ih (f n a).2 i

@[simp] theorem length_numberAlong (n : Nat) (l : List α) : (numberAlong f n l).1.length = l.length :=
  (forall₂_numberAlong n l).length_eq.symm

@[simp] theorem numberAlong_same : ∀ (n : Nat) (l : List α),
    numberAlong (fun n (a : α) => (a, n)) n l = (l, n)
  | _, [] => rfl
  | n, a :: l => by rw [numberAlong, numberAlong_same n l]

end Along

/-- A change that numbering does not see, before or after which the numbers can be given. -/
def Unseen {α β : Type} (f : Nat → α → α × Nat) (g : Nat → β → β × Nat) (h : α → β) : Prop :=
  ∀ n a, g n (h a) = (h (f n a).1, (f n a).2)

namespace Unseen

variable {α β γ : Type} {f : Nat → α → α × Nat} {g : Nat → β → β × Nat} {j : Nat → γ → γ × Nat}

theorem comp {h : α → β} {k : β → γ} (hk : Unseen g j k) (hh : Unseen f g h) :
    Unseen f j fun a => k (h a) := by
  intro n a
  rw [hk, hh]

theorem along {h : α → β} (hh : Unseen f g h) :
    Unseen (numberAlong f) (numberAlong g) (List.map h) :=
  numberAlong_map hh

end Unseen

/-! ### Values and attributes -/

mutual

/-- Numbers take the place of the names that are blanked. -/
theorem Value.blankEnv_numberEnv (n : Nat) : ∀ v : Value, (v.numberEnv n).1.blankEnv = v.blankEnv
  | .call name [] => by simp [Value.blankEnv, Argument.blankEnvEach, Value.numberEnv, Argument.numberEnvEach]
  | .call name (⟨argName, value, span⟩ :: rest) => by
    have ih := Argument.blankEnvEach_numberEnvEach n (⟨argName, value, span⟩ :: rest)
    by_cases h : (isEnvCall name && value.isLiteral) = true
    · obtain ⟨hc, hl⟩ := Bool.and_eq_true_iff.mp h
      have hs : ∀ text, (Value.string text).isLiteral = true := fun _ => rfl
      have hrest := Argument.blankEnvEach_numberEnvEach n rest
      simp only [Value.numberEnv, Argument.numberEnvEach, Value.numberEnv_of_isLiteral hl, hc, hl,
        Bool.and_self, ↓reduceIte, Value.blankEnv, Argument.blankEnvEach, hrest, Value.isLiteral_blankEnv, hs]
    · simp only [Value.numberEnv, Argument.numberEnvEach, Value.isLiteral_numberEnv, h]
      simp only [Argument.numberEnvEach] at ih
      simp only [Bool.false_eq_true, ↓reduceIte, Value.blankEnv, ih]
  | .array items => by
    simp only [Value.numberEnv, Value.blankEnv, Value.blankEnvEach_numberEnvEach n items]
  | .string _ | .int _ | .number _ | .boolean _ | .path _ => by simp [Value.numberEnv]

theorem Value.blankEnvEach_numberEnvEach (n : Nat) : ∀ l : List Value,
    Value.blankEnvEach (Value.numberEnvEach n l).1 = Value.blankEnvEach l
  | [] => rfl
  | v :: l => by
    simp only [Value.numberEnvEach, Value.blankEnvEach, Value.blankEnv_numberEnv n v,
      Value.blankEnvEach_numberEnvEach _ l]

theorem Argument.blankEnvEach_numberEnvEach (n : Nat) : ∀ args : List Argument,
    Argument.blankEnvEach (Argument.numberEnvEach n args).1 = Argument.blankEnvEach args
  | [] => rfl
  | ⟨name, value, span⟩ :: rest => by
    simp only [Argument.numberEnvEach, Argument.blankEnvEach, Value.blankEnv_numberEnv n value,
      Argument.blankEnvEach_numberEnvEach _ rest]

end

/-- What has its numbers keeps them. -/
theorem Value.numberEnv_twice (n : Nat) (v : Value) : (v.numberEnv n).1.numberEnv n = v.numberEnv n := by
  rw [← numberEnv_blankEnv, blankEnv_numberEnv, numberEnv_blankEnv]

theorem Attribute.numberEnv_twice (n : Nat) (a : Attribute) :
    (a.numberEnv n).1.numberEnv n = a.numberEnv n := by
  have h : Argument.numberEnvEach n (Argument.numberEnvEach n a.args).1 =
      Argument.numberEnvEach n a.args := by
    rw [← Argument.numberEnvEach_blankEnvEach, Argument.blankEnvEach_numberEnvEach,
      Argument.numberEnvEach_blankEnvEach]
  simp only [numberEnv, h]

/-! ### Schemas -/

/-- Names the environment variables in the attributes of a field. -/
def Field.numberEnv (n : Nat) (f : Field) : Field × Nat :=
  let (attributes, m) := numberAlong Attribute.numberEnv n f.attributes
  ({ f with attributes }, m)

/-- Names the environment variables in an attribute of a block. -/
def BlockAttribute.numberEnv (n : Nat) (a : BlockAttribute) : BlockAttribute × Nat :=
  let (attr, m) := a.attr.numberEnv n
  ({ a with attr }, m)

/-- Names the environment variables in the attributes of a value of an enum. -/
def EnumValue.numberEnv (n : Nat) (v : EnumValue) : EnumValue × Nat :=
  let (attributes, m) := numberAlong Attribute.numberEnv n v.attributes
  ({ v with attributes }, m)

/-- Names the environment variables in a property. -/
def Property.numberEnv (n : Nat) (p : Property) : Property × Nat :=
  let (value, m) := p.value.numberEnv n
  ({ p with value }, m)

/-- Names the environment variables on a line of a model. -/
def ModelMember.numberEnv (n : Nat) : ModelMember → ModelMember × Nat
  | .field f => (f.numberEnv n).map .field id
  | .blockAttribute a => (a.numberEnv n).map .blockAttribute id
  | .comment c => (.comment c, n)

/-- Names the environment variables on a line of an enum. -/
def EnumMember.numberEnv (n : Nat) : EnumMember → EnumMember × Nat
  | .value v => (v.numberEnv n).map .value id
  | .blockAttribute a => (a.numberEnv n).map .blockAttribute id
  | .comment c => (.comment c, n)

/-- Names the environment variables on a line of a block of configuration. -/
def ConfigMember.numberEnv (n : Nat) : ConfigMember → ConfigMember × Nat
  | .property p => (p.numberEnv n).map .property id
  | .comment c => (.comment c, n)

/-- Names the environment variables in a declaration. -/
def Declaration.numberEnv (n : Nat) : Declaration → Declaration × Nat
  | .config b =>
    (numberAlong ConfigMember.numberEnv n b.members).map (fun members => .config { b with members }) id
  | .model m =>
    (numberAlong ModelMember.numberEnv n m.members).map (fun members => .model { m with members }) id
  | .enum e =>
    (numberAlong EnumMember.numberEnv n e.members).map (fun members => .enum { e with members }) id
  | .comments b => (.comments b, n)

/-- Names the environment variables in a schema, the first one with number `n`. -/
def Schema.numberEnv (n : Nat) (s : Schema) : Schema × Nat :=
  (numberAlong Declaration.numberEnv n s.declarations).map .mk id

/-! ### Renaming -/

section Renaming

variable (ρ : Renaming) (model enum : String)

theorem Field.unseen_renameDeclared :
    Unseen Field.numberEnv Field.numberEnv (·.renameDeclared ρ model) := by
  intro n f
  have ha : Unseen Attribute.numberEnv Attribute.numberEnv (·.renameDeclared ρ model) :=
    Attribute.numberEnv_renameDeclared
  simp only [numberEnv, renameDeclared, ha.along n f.attributes]

theorem Field.unseen_renameReferences :
    Unseen Field.numberEnv Field.numberEnv (·.renameReferences ρ model) := by
  intro n f
  have ha : Unseen Attribute.numberEnv Attribute.numberEnv (·.renameReferences ρ model f.type) :=
    Attribute.numberEnv_renameReferences
  simp only [numberEnv, renameReferences, ha.along n f.attributes]

theorem ModelMember.unseen_renameDeclared :
    Unseen ModelMember.numberEnv ModelMember.numberEnv (·.renameDeclared ρ model) := by
  intro n member
  cases member with
  | field f => simp only [renameDeclared, numberEnv, Field.unseen_renameDeclared ρ model n f, Prod.map]
  | blockAttribute a =>
    simp only [renameDeclared, numberEnv, BlockAttribute.numberEnv, Attribute.numberEnv_renameKeys,
      Prod.map]
  | comment c => rfl

theorem ModelMember.unseen_renameReferences :
    Unseen ModelMember.numberEnv ModelMember.numberEnv (·.renameReferences ρ model) := by
  intro n member
  cases member with
  | field f => simp only [renameReferences, numberEnv, Field.unseen_renameReferences ρ model n f, Prod.map]
  | blockAttribute a =>
    simp only [renameReferences, numberEnv, BlockAttribute.numberEnv, Attribute.numberEnv_renameLists,
      Prod.map]
  | comment c => rfl

theorem EnumMember.unseen_rename :
    Unseen EnumMember.numberEnv EnumMember.numberEnv (·.rename ρ enum) := by
  intro n member
  cases member <;> rfl

theorem Declaration.unseen_rename :
    Unseen Declaration.numberEnv Declaration.numberEnv (·.rename ρ) := by
  intro n d
  cases d with
  | config b => rfl
  | model m =>
    have h := ((ModelMember.unseen_renameReferences ρ m.name.name).comp
      (ModelMember.unseen_renameDeclared ρ m.name.name)).along n m.members
    simp only [rename, Model.rename, numberEnv, h, Prod.map]
  | enum e =>
    have h := (EnumMember.unseen_rename ρ e.name.name).along n e.members
    simp only [rename, Enum.rename, numberEnv, h, Prod.map]
  | comments b => rfl

/-- Names can be changed before environment variables are numbered or after. -/
theorem Schema.unseen_rename : Unseen Schema.numberEnv Schema.numberEnv (·.rename ρ) := by
  intro n s
  have h := (Declaration.unseen_rename ρ).along n s.declarations
  simp only [rename, numberEnv, h, Prod.map]

end Renaming

/-! ### Numbering twice -/

theorem Field.numberEnv_twice (n : Nat) (f : Field) : (f.numberEnv n).1.numberEnv n = f.numberEnv n := by
  simp only [numberEnv, numberAlong_twice Attribute.numberEnv_twice]

theorem BlockAttribute.numberEnv_twice (n : Nat) (a : BlockAttribute) :
    (a.numberEnv n).1.numberEnv n = a.numberEnv n := by
  simp only [numberEnv, Attribute.numberEnv_twice]

theorem EnumValue.numberEnv_twice (n : Nat) (v : EnumValue) :
    (v.numberEnv n).1.numberEnv n = v.numberEnv n := by
  simp only [numberEnv, numberAlong_twice Attribute.numberEnv_twice]

theorem Property.numberEnv_twice (n : Nat) (p : Property) :
    (p.numberEnv n).1.numberEnv n = p.numberEnv n := by
  simp only [numberEnv, Value.numberEnv_twice]

theorem ModelMember.numberEnv_twice (n : Nat) (member : ModelMember) :
    (member.numberEnv n).1.numberEnv n = member.numberEnv n := by
  cases member with
  | field f => simp only [numberEnv, Prod.map, Field.numberEnv_twice]
  | blockAttribute a => simp only [numberEnv, Prod.map, BlockAttribute.numberEnv_twice]
  | comment c => rfl

theorem EnumMember.numberEnv_twice (n : Nat) (member : EnumMember) :
    (member.numberEnv n).1.numberEnv n = member.numberEnv n := by
  cases member with
  | value v => simp only [numberEnv, Prod.map, EnumValue.numberEnv_twice]
  | blockAttribute a => simp only [numberEnv, Prod.map, BlockAttribute.numberEnv_twice]
  | comment c => rfl

theorem ConfigMember.numberEnv_twice (n : Nat) (member : ConfigMember) :
    (member.numberEnv n).1.numberEnv n = member.numberEnv n := by
  cases member with
  | property p => simp only [numberEnv, Prod.map, Property.numberEnv_twice]
  | comment c => rfl

theorem Declaration.numberEnv_twice (n : Nat) (d : Declaration) :
    (d.numberEnv n).1.numberEnv n = d.numberEnv n := by
  cases d with
  | config b => simp only [numberEnv, Prod.map, numberAlong_twice ConfigMember.numberEnv_twice]
  | model m => simp only [numberEnv, Prod.map, numberAlong_twice ModelMember.numberEnv_twice]
  | enum e => simp only [numberEnv, Prod.map, numberAlong_twice EnumMember.numberEnv_twice]
  | comments b => rfl

theorem Schema.numberEnv_twice (n : Nat) (s : Schema) :
    (s.numberEnv n).1.numberEnv n = s.numberEnv n := by
  simp only [numberEnv, Prod.map, numberAlong_twice Declaration.numberEnv_twice]

end Pseudonym

/-
# Other names for environment variables

Changing the names of environment variables is a retouch: neither renamings
nor texts see it. What was numbered from one number on becomes, under a change
that carries each of its numbers along, what is numbered from another number
on. Only the numbers that are used matter, so a change can carry each part of
a schema to a place of its own.
-/
import Pseudonym.Proofs.Obfuscate.Retouch

namespace Pseudonym

/-! ### The names in a value -/

mutual

/-- Changes the names of the environment variables in a value. -/
def Value.mapEnv (f : String → String) : Value → Value
  | .call name args =>
    match Argument.mapEnvEach f args with
    | [] => .call name []
    | first :: rest =>
      if isEnvCall name && first.value.isLiteral then
        .call name (first.mapValue (.mapString f) :: rest)
      else .call name (first :: rest)
  | .array items => .array (Value.mapEnvEach f items)
  | .string text => .string text
  | .int number => .int number
  | .number digits => .number digits
  | .boolean truth => .boolean truth
  | .path segments => .path segments

/-- Changes the names of the environment variables in values. -/
def Value.mapEnvEach (f : String → String) : List Value → List Value
  | [] => []
  | value :: rest => value.mapEnv f :: Value.mapEnvEach f rest

/-- Changes the names of the environment variables in arguments. -/
def Argument.mapEnvEach (f : String → String) : List Argument → List Argument
  | [] => []
  | ⟨name, value, span⟩ :: rest => ⟨name, value.mapEnv f, span⟩ :: Argument.mapEnvEach f rest

end

section MapEnv

variable (f : String → String)

theorem Value.mapEnvEach_eq_map (l : List Value) : mapEnvEach f l = l.map (·.mapEnv f) := by
  induction l with
  | nil => rfl
  | cons v l ih => rw [mapEnvEach, ih, List.map_cons]

theorem Value.mapEnv_of_isLiteral {v : Value} (h : v.isLiteral = true) : v.mapEnv f = v := by
  cases v with
  | call name args => cases h
  | array items => cases h
  | path segments => cases h
  | _ => simp only [mapEnv]

/-- Changing the names of environment variables. -/
def Retouch.mapEnv : Retouch where
  ident := id
  value := .mapEnv f
  comment := id
  span := id
  ident_name := blankEnv.ident_name
  ident_rename := blankEnv.ident_rename
  value_literal v h := Value.mapEnv_of_isLiteral f h
  value_path _ := by rw [Value.mapEnv]
  value_array items := by rw [Value.mapEnv, Value.mapEnvEach_eq_map]
  value_call name args := by
    simp only [Value.mapEnv]
    split
    · exact ⟨[], rfl⟩
    · split
      · exact ⟨_, rfl⟩
      · exact ⟨_, rfl⟩
  value_bare _ := by rw [Value.mapEnv, Argument.mapEnvEach]
  comment_cleared := blankEnv.comment_cleared

theorem Argument.mapEnvEach_eq_map (args : List Argument) :
    mapEnvEach f args = args.map (Retouch.mapEnv f).onArgument := by
  induction args with
  | nil => rfl
  | cons arg rest ih =>
    obtain ⟨name, value, span⟩ := arg
    rw [mapEnvEach, ih, List.map_cons, Retouch.onArgument]
    cases name <;> rfl

end MapEnv

/-! ### Carrying numbers along -/

/-- The change takes the numbers from `n` on to those from `n'` on, as many as there are. -/
def Carries (f : String → String) (n n' count : Nat) : Prop :=
  ∀ k < count, f (Registry.envName (n + k)) = Registry.envName (n' + k)

variable {f : String → String} {n n' a b : Nat}

theorem Carries.left (h : Carries f n n' (a + b)) : Carries f n n' a :=
  fun k hk => h k (by omega)

theorem Carries.right (h : Carries f n n' (a + b)) : Carries f (n + a) (n' + a) b := by
  intro k hk
  rw [Nat.add_assoc, Nat.add_assoc]
  exact h (a + k) (by omega)

/-- What is numbered from one number on is carried to what is numbered from another one on. How
many numbers are used does not depend on where they begin. -/
structure Shifts {α : Type} (f : String → String) (number : Nat → α → α × Nat) (change : α → α) :
    Prop where
  next : ∀ n a, (number n a).2 = n + (number 0 a).2
  carry : ∀ n n' a, Carries f n n' (number 0 a).2 → change (number n a).1 = (number n' a).1

namespace Shifts

variable {α : Type} {number : Nat → α → α × Nat} {change : α → α}

theorem next_numberAlong (h : Shifts f number change) : ∀ (n : Nat) (l : List α),
    (numberAlong number n l).2 = n + (l.map fun a => (number 0 a).2).sum
  | _, [] => rfl
  | n, a :: l => by
    rw [numberAlong, next_numberAlong h _ l, h.next n a, List.map_cons, List.sum_cons,
      Nat.add_assoc]

theorem carry_numberAlong (h : Shifts f number change) : ∀ (n n' : Nat) (l : List α),
    Carries f n n' (l.map fun a => (number 0 a).2).sum →
      (numberAlong number n l).1.map change = (numberAlong number n' l).1
  | _, _, [], _ => rfl
  | n, n', a :: l, hl => by
    rw [List.map_cons, List.sum_cons] at hl
    rw [numberAlong, numberAlong, List.map_cons, h.carry n n' a hl.left, h.next n a, h.next n' a,
      carry_numberAlong h _ _ l hl.right]

/-- Along a list. -/
theorem along (h : Shifts f number change) : Shifts f (numberAlong number) (List.map change) where
  next n l := by
    rw [h.next_numberAlong n l, h.next_numberAlong 0 l, Nat.zero_add]
  carry n n' l hl := by
    rw [h.next_numberAlong 0 l, Nat.zero_add] at hl
    exact h.carry_numberAlong n n' l hl

/-- What is numbered as a part of something else. -/
theorem within {β : Type} {numberPart : Nat → β → β × Nat} {changePart : β → β}
    (h : Shifts f numberPart changePart) (part : α → β) (put : α → β → α)
    (hnumber : ∀ n a, number n a = (numberPart n (part a)).map (put a) id)
    (hchange : ∀ a p, change (put a p) = put a (changePart p)) : Shifts f number change where
  next n a := by
    rw [hnumber, hnumber]
    exact h.next n (part a)
  carry n n' a ha := by
    rw [hnumber] at ha
    rw [hnumber, hnumber]
    exact (hchange a _).trans (congrArg (put a) (h.carry n n' (part a) ha))

end Shifts

/-! ### Values -/

theorem Value.numberEnv_snd (n : Nat) (v : Value) : (v.numberEnv n).2 = n + (v.numberEnv 0).2 := by
  have h := v.numberEnv_shift 0 n
  rw [Nat.zero_add] at h
  rw [h, Nat.add_comm]

theorem Value.numberEnvEach_snd (n : Nat) (l : List Value) :
    (numberEnvEach n l).2 = n + (numberEnvEach 0 l).2 := by
  have h := numberEnvEach_shift 0 n l
  rw [Nat.zero_add] at h
  rw [h, Nat.add_comm]

mutual

theorem Value.mapEnv_numberEnv (n n' : Nat) : ∀ v : Value, Carries f n n' (v.numberEnv 0).2 →
    (v.numberEnv n).1.mapEnv f = (v.numberEnv n').1
  | .call name [], _ => by
    simp only [Value.numberEnv, Argument.numberEnvEach, Value.mapEnv, Argument.mapEnvEach]
  | .call name (⟨argName, value, span⟩ :: rest), h => by
    rw [Value.numberEnv_call_snd] at h
    have ih := Argument.mapEnvEach_numberEnvEach n n' (⟨argName, value, span⟩ :: rest) h.left
    by_cases henv : (isEnvCall name && value.isLiteral) = true
    · -- the literal has the number behind those of all arguments
      obtain ⟨hc, hl⟩ := Bool.and_eq_true_iff.mp henv
      have hs : ∀ text, (Value.string text).isLiteral = true := fun _ => rfl
      rw [if_pos henv] at h
      have hnumber := h.right 0 Nat.one_pos
      simp only [Argument.numberEnvEach, Value.numberEnv_of_isLiteral hl] at ih hnumber
      rw [Argument.mapEnvEach, List.cons.injEq] at ih
      have hname : f (Registry.envName (Argument.numberEnvEach n rest).2) =
          Registry.envName (Argument.numberEnvEach n' rest).2 := by
        rw [Argument.numberEnvEach_snd, Argument.numberEnvEach_snd]
        exact hnumber
      simp only [Value.numberEnv, Argument.numberEnvEach, Value.numberEnv_of_isLiteral hl, hc, hl,
        Bool.and_self, ↓reduceIte, Value.mapEnv, Argument.mapEnvEach, hs, ih.2, Argument.mapValue,
        Value.mapString, hname]
    · simp only [Argument.numberEnvEach] at ih
      simp only [Value.numberEnv, Argument.numberEnvEach, Value.isLiteral_numberEnv, henv,
        Bool.false_eq_true, ↓reduceIte, Value.mapEnv, ih]
  | .array items, h => by
    simp only [Value.numberEnv] at h
    simp only [Value.numberEnv, Value.mapEnv, Value.mapEnvEach_numberEnvEach n n' items h]
  | .string _, _ | .int _, _ | .number _, _ | .boolean _, _ | .path _, _ => by
    simp only [Value.numberEnv, Value.mapEnv]

theorem Value.mapEnvEach_numberEnvEach (n n' : Nat) : ∀ l : List Value,
    Carries f n n' (Value.numberEnvEach 0 l).2 →
      Value.mapEnvEach f (Value.numberEnvEach n l).1 = (Value.numberEnvEach n' l).1
  | [], _ => rfl
  | v :: l, h => by
    simp only [Value.numberEnvEach] at h
    rw [Value.numberEnvEach_snd] at h
    have hl := Value.mapEnvEach_numberEnvEach _ _ l h.right
    rw [← Value.numberEnv_snd, ← Value.numberEnv_snd] at hl
    simp only [Value.numberEnvEach, Value.mapEnvEach, Value.mapEnv_numberEnv n n' v h.left, hl]

theorem Argument.mapEnvEach_numberEnvEach (n n' : Nat) : ∀ args : List Argument,
    Carries f n n' (Argument.numberEnvEach 0 args).2 →
      Argument.mapEnvEach f (Argument.numberEnvEach n args).1 = (Argument.numberEnvEach n' args).1
  | [], _ => rfl
  | ⟨name, value, span⟩ :: rest, h => by
    simp only [Argument.numberEnvEach] at h
    rw [Argument.numberEnvEach_snd] at h
    have hrest := Argument.mapEnvEach_numberEnvEach _ _ rest h.right
    rw [← Value.numberEnv_snd, ← Value.numberEnv_snd] at hrest
    simp only [Argument.numberEnvEach, Argument.mapEnvEach,
      Value.mapEnv_numberEnv n n' value h.left, hrest]

end

/-! ### Declarations -/

theorem Value.shifts_numberEnv : Shifts f Value.numberEnv (Value.mapEnv f) where
  next := Value.numberEnv_snd
  carry := Value.mapEnv_numberEnv

theorem Attribute.shifts_numberEnv :
    Shifts f Attribute.numberEnv (Retouch.mapEnv f).onAttribute := by
  have hargs : Shifts f Argument.numberEnvEach (.map (Retouch.mapEnv f).onArgument) := by
    refine ⟨fun n args => Argument.numberEnvEach_snd n args, fun n n' args h => ?_⟩
    rw [← Argument.mapEnvEach_eq_map]
    exact Argument.mapEnvEach_numberEnvEach n n' args h
  exact hargs.within (·.args) (fun a args => { a with args }) (fun _ _ => rfl) fun _ _ => rfl

theorem Retouch.onType_mapEnv (type : FieldType) : (Retouch.mapEnv f).onType type = type := by
  cases type <;> rfl

theorem Retouch.map_comment_mapEnv (c : Option Comment) : c.map (Retouch.mapEnv f).comment = c := by
  cases c <;> rfl

theorem Field.shifts_numberEnv : Shifts f Field.numberEnv (Retouch.mapEnv f).onField := by
  refine Attribute.shifts_numberEnv.along.within (·.attributes)
    (fun field attributes => { field with attributes }) (fun _ _ => rfl) fun field attributes => ?_
  simp only [Retouch.onField, Retouch.onType_mapEnv, Retouch.map_comment_mapEnv]
  rfl

theorem BlockAttribute.shifts_numberEnv :
    Shifts f BlockAttribute.numberEnv (Retouch.mapEnv f).onBlockAttribute := by
  refine Attribute.shifts_numberEnv.within (·.attr) (fun a attr => { a with attr })
    (fun _ _ => rfl) fun a attr => ?_
  simp only [Retouch.onBlockAttribute, Retouch.map_comment_mapEnv]

theorem ModelMember.shifts_numberEnv :
    Shifts f ModelMember.numberEnv (Retouch.mapEnv f).onModelMember where
  next n member := by
    cases member with
    | field field => exact (Field.shifts_numberEnv (f := f)).next n field
    | blockAttribute a => exact (BlockAttribute.shifts_numberEnv (f := f)).next n a
    | comment c => rfl
  carry n n' member h := by
    cases member with
    | field field => exact congrArg ModelMember.field (Field.shifts_numberEnv.carry n n' field h)
    | blockAttribute a =>
      exact congrArg ModelMember.blockAttribute (BlockAttribute.shifts_numberEnv.carry n n' a h)
    | comment c => rfl

theorem EnumMember.shifts_numberEnv :
    Shifts f EnumMember.numberEnv (Retouch.mapEnv f).onEnumMember := by
  have hattributes := (Attribute.shifts_numberEnv (f := f)).along
  refine ⟨fun n member => ?_, fun n n' member h => ?_⟩
  · cases member with
    | value v => exact hattributes.next n v.attributes
    | blockAttribute a => exact (BlockAttribute.shifts_numberEnv (f := f)).next n a
    | comment c => rfl
  · cases member with
    | value v =>
      have hv := hattributes.carry n n' v.attributes h
      simp only [EnumMember.numberEnv, EnumValue.numberEnv, Prod.map, Retouch.onEnumMember, hv,
        Retouch.map_comment_mapEnv]
      rfl
    | blockAttribute a =>
      exact congrArg EnumMember.blockAttribute (BlockAttribute.shifts_numberEnv.carry n n' a h)
    | comment c => rfl

theorem ConfigMember.shifts_numberEnv :
    Shifts f ConfigMember.numberEnv (Retouch.mapEnv f).onConfigMember := by
  refine ⟨fun n member => ?_, fun n n' member h => ?_⟩
  · cases member with
    | property p => exact (Value.shifts_numberEnv (f := f)).next n p.value
    | comment c => rfl
  · cases member with
    | property p =>
      have hp : (Retouch.mapEnv f).value (p.value.numberEnv n).1 = (p.value.numberEnv n').1 :=
        Value.shifts_numberEnv.carry n n' p.value h
      simp only [ConfigMember.numberEnv, Property.numberEnv, Prod.map, Retouch.onConfigMember, hp,
        Retouch.map_comment_mapEnv]
      rfl
    | comment c => rfl

/-- A declaration whose variables are numbered from one number on, carried to where they are
numbered from another one on. -/
theorem Declaration.shifts_numberEnv :
    Shifts f Declaration.numberEnv (Retouch.mapEnv f).onDeclaration := by
  have hconfig := (ConfigMember.shifts_numberEnv (f := f)).along
  have hmodel := (ModelMember.shifts_numberEnv (f := f)).along
  have henum := (EnumMember.shifts_numberEnv (f := f)).along
  refine ⟨fun n d => ?_, fun n n' d h => ?_⟩
  · cases d with
    | config b => exact hconfig.next n b.members
    | model m => exact hmodel.next n m.members
    | enum e => exact henum.next n e.members
    | comments b => rfl
  · cases d with
    | config b =>
      have hb := hconfig.carry n n' b.members h
      simp only [Declaration.numberEnv, Prod.map, Retouch.onDeclaration, hb]
      rfl
    | model m =>
      have hm := hmodel.carry n n' m.members h
      simp only [Declaration.numberEnv, Prod.map, Retouch.onDeclaration, hm]
      rfl
    | enum e =>
      have he := henum.carry n n' e.members h
      simp only [Declaration.numberEnv, Prod.map, Retouch.onDeclaration, he]
      rfl
    | comments b =>
      have hcomments : b.comments.map (Retouch.mapEnv f).comment = b.comments :=
        List.map_id b.comments
      simp only [Declaration.numberEnv, Retouch.onDeclaration, hcomments]
      rfl

end Pseudonym

/-
# What an obfuscation does not read

Some texts of a schema leave no trace in its obfuscation: comments, the names
of environment variables, literal default values, the arguments of a default
that gives way to the current time, and the names of indexes, foreign keys and
unique keys of a field. `Schema.blanked` blanks them all. Of the name of a
unique key it stays whether it has a point, and of the arguments of a dropped
default how many environment variables they read.
-/
import Pseudonym.Obfuscate.Basic
import Pseudonym.Proofs.Obfuscate.RenamedReferences

namespace Pseudonym

/-! ### Environment variables -/

mutual

/-- Blanks the names of environment variables in a value. -/
def Value.blankEnv : Value → Value
  | .call name args =>
    match Argument.blankEnvEach args with
    | [] => .call name []
    | first :: rest =>
      if isEnvCall name && first.value.isLiteral then
        .call name ({ first with value := .string "" } :: rest)
      else .call name (first :: rest)
  | .array items => .array (Value.blankEnvEach items)
  | .string text => .string text
  | .int number => .int number
  | .number digits => .number digits
  | .boolean truth => .boolean truth
  | .path segments => .path segments

/-- Blanks the names of environment variables in values. -/
def Value.blankEnvEach : List Value → List Value
  | [] => []
  | value :: rest => value.blankEnv :: Value.blankEnvEach rest

/-- Blanks the names of environment variables in arguments. -/
def Argument.blankEnvEach : List Argument → List Argument
  | [] => []
  | ⟨name, value, span⟩ :: rest => ⟨name, value.blankEnv, span⟩ :: Argument.blankEnvEach rest

end

@[simp] theorem Value.isLiteral_blankEnv (v : Value) : v.blankEnv.isLiteral = v.isLiteral := by
  cases v with
  | call name args =>
    simp only [blankEnv]
    split
    · rfl
    · split <;> rfl
  | _ => simp [blankEnv, isLiteral]

theorem Value.numberEnv_of_isLiteral {v : Value} (h : v.isLiteral = true) (n : Nat) :
    v.numberEnv n = (v, n) := by
  cases v with
  | call name args => cases h
  | array items => cases h
  | path segments => cases h
  | _ => simp [numberEnv]

mutual

/-- The old name of an environment variable is not read when it is numbered. -/
theorem Value.numberEnv_blankEnv (n : Nat) : ∀ v : Value, v.blankEnv.numberEnv n = v.numberEnv n
  | .call name [] => by simp [Value.blankEnv, Argument.blankEnvEach, Value.numberEnv]
  | .call name (⟨argName, value, span⟩ :: rest) => by
    have ih := Argument.numberEnvEach_blankEnvEach n (⟨argName, value, span⟩ :: rest)
    simp only [Value.blankEnv, Argument.blankEnvEach, Value.isLiteral_blankEnv]
    by_cases h : (isEnvCall name && value.isLiteral) = true
    · -- the literal goes either way, whatever it was
      obtain ⟨hc, hl⟩ := Bool.and_eq_true_iff.mp h
      have hs : (Value.string "").isLiteral = true := rfl
      simp only [↓reduceIte, Value.numberEnv, Argument.numberEnvEach,
        Value.numberEnv_of_isLiteral hl, Argument.numberEnvEach_blankEnvEach n rest, hc, hl, hs,
        Bool.and_self]
    · simp only [h, ↓reduceIte, Bool.false_eq_true]
      simp only [Argument.blankEnvEach] at ih
      simp only [Value.numberEnv, ih]
  | .array items => by
    simp only [Value.blankEnv, Value.numberEnv, Value.numberEnvEach_blankEnvEach n items]
  | .string _ | .int _ | .number _ | .boolean _ | .path _ => by simp [Value.blankEnv]

theorem Value.numberEnvEach_blankEnvEach (n : Nat) : ∀ l : List Value,
    Value.numberEnvEach n (Value.blankEnvEach l) = Value.numberEnvEach n l
  | [] => rfl
  | v :: l => by
    simp only [Value.blankEnvEach, Value.numberEnvEach, Value.numberEnv_blankEnv n v]
    rw [Value.numberEnvEach_blankEnvEach _ l]

theorem Argument.numberEnvEach_blankEnvEach (n : Nat) : ∀ args : List Argument,
    Argument.numberEnvEach n (Argument.blankEnvEach args) = Argument.numberEnvEach n args
  | [] => rfl
  | ⟨name, value, span⟩ :: rest => by
    simp only [Argument.blankEnvEach, Argument.numberEnvEach, Value.numberEnv_blankEnv n value]
    rw [Argument.numberEnvEach_blankEnvEach _ rest]

end

@[simp] theorem Value.isLiteral_numberEnv (n : Nat) (v : Value) :
    (v.numberEnv n).1.isLiteral = v.isLiteral := by
  cases v with
  | call name args =>
    simp only [numberEnv]
    split
    · rfl
    · split <;> rfl
  | _ => simp [numberEnv, isLiteral]

theorem Value.numberEnv_call_snd (n : Nat) (name : String) (first : Argument)
    (rest : List Argument) : ((Value.call name (first :: rest)).numberEnv n).2 =
      (Argument.numberEnvEach n (first :: rest)).2 +
        if isEnvCall name && first.value.isLiteral then 1 else 0 := by
  simp only [numberEnv, Argument.numberEnvEach_cons, Argument.mapValue_value, isLiteral_numberEnv]
  split <;> rfl

mutual

/-- How many environment variables a value reads does not depend on their numbers. -/
theorem Value.numberEnv_shift (n k : Nat) : ∀ v : Value,
    (v.numberEnv (n + k)).2 = (v.numberEnv n).2 + k
  | .call name [] => by simp [Value.numberEnv, Argument.numberEnvEach]
  | .call name (first :: rest) => by
    rw [Value.numberEnv_call_snd, Value.numberEnv_call_snd,
      Argument.numberEnvEach_shift n k (first :: rest)]
    omega
  | .array items => by
    simp only [Value.numberEnv, Value.numberEnvEach_shift n k items]
  | .string _ | .int _ | .number _ | .boolean _ | .path _ => by simp [Value.numberEnv]

theorem Value.numberEnvEach_shift (n k : Nat) : ∀ l : List Value,
    (Value.numberEnvEach (n + k) l).2 = (Value.numberEnvEach n l).2 + k
  | [] => rfl
  | v :: l => by
    simp only [Value.numberEnvEach, Value.numberEnv_shift n k v, Value.numberEnvEach_shift _ k l]

theorem Argument.numberEnvEach_shift (n k : Nat) : ∀ args : List Argument,
    (Argument.numberEnvEach (n + k) args).2 = (Argument.numberEnvEach n args).2 + k
  | [] => rfl
  | ⟨_, value, _⟩ :: rest => by
    simp only [Argument.numberEnvEach, Value.numberEnv_shift n k value,
      Argument.numberEnvEach_shift _ k rest]

end

/-! ### Default values -/

namespace Argument

/-- How many environment variables some arguments read. -/
def envCount (args : List Argument) : Nat := (numberEnvEach 0 args).2

/-- An argument that reads an environment variable and nothing else. -/
def readsEnv : Argument :=
  ⟨none, .call "env" [⟨none, .string "", ⟨0, 0, 0⟩⟩], ⟨0, 0, 0⟩⟩

/-- Arguments that read as many environment variables as these, and nothing else. -/
def envOnly (args : List Argument) : List Argument := .replicate (envCount args) readsEnv

theorem numberEnvEach_snd (n : Nat) (args : List Argument) :
    (numberEnvEach n args).2 = n + envCount args := by
  have := numberEnvEach_shift 0 n args
  rw [Nat.zero_add] at this
  rw [this, Nat.add_comm]
  rfl

theorem numberEnvEach_envOnly (n : Nat) (args : List Argument) :
    (numberEnvEach n (envOnly args)).2 = (numberEnvEach n args).2 := by
  rw [numberEnvEach_snd n args, envOnly]
  generalize envCount args = c
  induction c generalizing n with
  | zero => rfl
  | succ c ih =>
    have h : (readsEnv.value.numberEnv n).2 = n + 1 := rfl
    rw [List.replicate_succ, numberEnvEach_cons, h, ih]
    omega

end Argument

namespace Value

/-- Blanks a default value that is a literal. Of a default that gives way to the current time
only some of the arguments are kept. -/
def blankItem (type : FieldType) (keep : List Argument → List Argument) : Value → Value
  | .string _ | .int _ | .number _ | .boolean _ => .string ""
  | .call name args =>
    if name == "dbgenerated" && type.scalar? == some .dateTime then .call name (keep args)
    else .call name args
  | value => value

/-- Blanks a default value, or the items of a default array. -/
def blankDefault (type : FieldType) (keep : List Argument → List Argument) : Value → Value
  | .array items => .array (items.map (blankItem type keep))
  | value => value.blankItem type keep

theorem numberEnv_call_of_not_env {name : String} (h : isEnvCall name = false) (n : Nat)
    (args : List Argument) : (Value.call name args).numberEnv n =
      (.call name (Argument.numberEnvEach n args).1, (Argument.numberEnvEach n args).2) := by
  simp only [numberEnv, h, Bool.false_and, Bool.false_eq_true, ↓reduceIte]
  split <;> simp_all

variable {type : FieldType}

/-- Blanking keeps the numbers of environment variables, and what it changes is not read
later. -/
theorem numberEnv_blankItem (type : FieldType) (n : Nat) (v : Value) :
    ((v.numberEnv n).1.blankItem type fun _ => []) =
        ((v.blankItem type Argument.envOnly).numberEnv n).1.blankItem type (fun _ => []) ∧
      (v.numberEnv n).2 = ((v.blankItem type Argument.envOnly).numberEnv n).2 := by
  cases v with
  | call name args =>
    by_cases h : (name == "dbgenerated" && type.scalar? == some .dateTime) = true
    · have hn : isEnvCall name = false := by
        simp only [Bool.and_eq_true, beq_iff_eq] at h
        rw [h.1]
        rfl
      simp only [blankItem, h, ↓reduceIte, numberEnv_call_of_not_env hn]
      exact ⟨trivial, (Argument.numberEnvEach_envOnly n args).symm⟩
    · simp only [blankItem, h]
      exact ⟨rfl, rfl⟩
  | array items => exact ⟨rfl, rfl⟩
  | path segments => exact ⟨rfl, rfl⟩
  | _ => simp [blankItem, numberEnv]

theorem numberEnvEach_blankItem (type : FieldType) : ∀ (n : Nat) (l : List Value),
    ((numberEnvEach n l).1.map (blankItem type fun _ => [])) =
        (numberEnvEach n (l.map (blankItem type Argument.envOnly))).1.map
          (blankItem type fun _ => []) ∧
      (numberEnvEach n l).2 = (numberEnvEach n (l.map (blankItem type Argument.envOnly))).2
  | _, [] => ⟨rfl, rfl⟩
  | n, v :: l => by
    obtain ⟨h1, h2⟩ := numberEnv_blankItem type n v
    obtain ⟨ih1, ih2⟩ := numberEnvEach_blankItem type (v.numberEnv n).2 l
    simp only [numberEnvEach, List.map_cons]
    rw [h1, ih1, ih2, h2]
    exact ⟨rfl, rfl⟩

theorem array?_numberEnv {v : Value} (h : v.array? = none) (n : Nat) :
    (v.numberEnv n).1.array? = none := by
  cases v with
  | call name args =>
    simp only [numberEnv]
    split
    · rfl
    · split <;> rfl
  | array items => cases h
  | _ => simp [numberEnv, array?]

theorem array?_blankItem {v : Value} (h : v.array? = none) (keep : List Argument → List Argument) :
    (v.blankItem type keep).array? = none := by
  cases v with
  | call name args =>
    simp only [blankItem]
    split <;> rfl
  | array items => cases h
  | _ => rfl

theorem blankDefault_of_array?_none {v : Value} (h : v.array? = none)
    (keep : List Argument → List Argument) :
    v.blankDefault type keep = v.blankItem type keep := by
  cases v with
  | array items => cases h
  | _ => rfl

theorem numberEnv_blankDefault (type : FieldType) (n : Nat) (v : Value) :
    ((v.numberEnv n).1.blankDefault type fun _ => []) =
        ((v.blankDefault type Argument.envOnly).numberEnv n).1.blankDefault type (fun _ => []) ∧
      (v.numberEnv n).2 = ((v.blankDefault type Argument.envOnly).numberEnv n).2 := by
  cases hv : v.array? with
  | some items =>
    rw [eq_array_of_array? hv]
    obtain ⟨h1, h2⟩ := numberEnvEach_blankItem type n items
    simp only [numberEnv, blankDefault]
    exact ⟨congrArg Value.array h1, h2⟩
  | none =>
    rw [blankDefault_of_array?_none hv, blankDefault_of_array?_none (array?_numberEnv hv n),
      blankDefault_of_array?_none (array?_numberEnv (array?_blankItem hv _) n)]
    exact numberEnv_blankItem type n v

end Value

/-! ### Attributes -/

namespace Attribute

/-- What is read of the name of a unique key: whether it has a point. -/
def keyShape (old : String) : String := if old.toList.contains '.' then "." else ""

/-- Blanks the names of environment variables in an attribute. -/
def blankEnv (a : Attribute) : Attribute := a.mapArgs Argument.blankEnvEach

/-- Blanks the name of the unique key of a field. -/
def blankKey (a : Attribute) : Attribute :=
  if a.is "unique" then
    a.mapArgs (.map fun arg =>
      if arg.isNamed "map" then arg.mapValue (.mapString keyShape) else arg)
  else a

/-- Blanks the name of the foreign key. -/
def blankForeignKey : List Argument → List Argument :=
  Argument.mapFirst (·.isNamed "map") (.mapString fun _ => "")

/-- Blanks the default value or the name of the foreign key of a field of this type. -/
def blankOnField (type : FieldType) (keep : List Argument → List Argument) (a : Attribute) :
    Attribute :=
  if a.is "default" then a.mapArgs (Argument.mapHead (.blankDefault type keep))
  else if a.is "relation" then a.mapArgs blankForeignKey
  else a

/-- Blanks the name in the second argument. -/
def blankSecond : List Argument → List Argument
  | first :: second :: rest =>
    first :: (if second.isNamed "map" then second.mapValue (.mapString fun _ => "") else second) :: rest
  | args => args

/-- Blanks the name of an index. -/
def blankIndex (a : Attribute) : Attribute :=
  if a.is "index" then a.mapArgs blankSecond else a

end Attribute

/-! ### Blocks -/

/-- The field with everything blanked that is not read. -/
def Field.blanked (f : Field) : Field :=
  { f with
    attributes := f.attributes.map fun a =>
      (a.blankOnField f.type Argument.envOnly).blankKey.blankEnv
    comment := f.comment.map (·.cleared) }

/-- The line of a model with everything blanked that is not read. -/
def ModelMember.blanked : ModelMember → ModelMember
  | .field f => .field f.blanked
  | .blockAttribute a => .blockAttribute ⟨a.attr.blankIndex.blankEnv, a.comment.map (·.cleared)⟩
  | .comment c => .comment c.cleared

/-- The line of an enum with everything blanked that is not read. -/
def EnumMember.blanked : EnumMember → EnumMember
  | .value v => .value { v with
      attributes := v.attributes.map (·.blankEnv), comment := v.comment.map (·.cleared) }
  | .blockAttribute a => .blockAttribute ⟨a.attr.blankEnv, a.comment.map (·.cleared)⟩
  | .comment c => .comment c.cleared

/-- The line of a block of configuration with everything blanked that is not read. -/
def ConfigMember.blanked : ConfigMember → ConfigMember
  | .property p => .property { p with value := p.value.blankEnv, comment := p.comment.map (·.cleared) }
  | .comment c => .comment c.cleared

/-- The declaration with everything blanked that is not read. -/
def Declaration.blanked : Declaration → Declaration
  | .config b => .config { b with members := b.members.map (·.blanked) }
  | .model m => .model { m with members := m.members.map (·.blanked) }
  | .enum e => .enum { e with members := e.members.map (·.blanked) }
  | .comments b => .comments { b with comments := [] }

/-- The schema with everything blanked that its obfuscation does not read. -/
def Schema.blanked (s : Schema) : Schema := ⟨s.declarations.map (·.blanked)⟩

end Pseudonym

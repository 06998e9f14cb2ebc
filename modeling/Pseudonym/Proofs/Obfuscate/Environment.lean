/-
# Naming environment variables apart from other names

The environment variables of a schema are numbered on the way through its
declarations, but what is numbered and what is renamed do not touch: only
literals inside calls become names of variables, and only strings and paths
outside calls are names of the schema. So a change of names can be made before
the variables are numbered or after.
-/
import Pseudonym.Proofs.Obfuscate.Renaming

namespace Pseudonym

/-- A change of values that numbering the environment variables does not see. -/
def Value.Unnumbered (f : Value → Value) : Prop :=
  ∀ n v, (f v).numberEnv n = (f (v.numberEnv n).1, (v.numberEnv n).2)

/-- A property of arguments that numbering the environment variables does not touch. -/
def Argument.Unnumbered (p : Argument → Bool) : Prop :=
  ∀ n a, p (a.mapValue fun v => (v.numberEnv n).1) = p a

namespace Value

theorem unnumbered_mapString (f : String → String) : Unnumbered (mapString f) := by
  intro n v
  cases v with
  | call name args =>
    simp only [mapString, numberEnv]
    split
    · rfl
    · split <;> rfl
  | _ => simp [mapString, numberEnv]

theorem unnumbered_renameItem (f : String → String) : Unnumbered (renameItem f) := by
  intro n v
  cases v with
  | call name args =>
    simp only [renameItem, numberEnv]
    split
    · rfl
    · split <;> rfl
  | path segments =>
    cases segments with
    | nil => rfl
    | cons a rest => cases rest <;> rfl
  | _ => simp [renameItem, numberEnv]

theorem numberEnvEach_map {f : Value → Value} (hf : Unnumbered f) : ∀ (n : Nat) (l : List Value),
    numberEnvEach n (l.map f) = ((numberEnvEach n l).1.map f, (numberEnvEach n l).2)
  | _, [] => rfl
  | n, v :: l => by
    rw [List.map_cons, numberEnvEach, hf n v, numberEnvEach]
    simp only [numberEnvEach_map hf _ l]
    rfl

theorem unnumbered_renameItems (f : String → String) : Unnumbered (renameItems f) := by
  intro n v
  cases v with
  | call name args =>
    simp only [renameItems, numberEnv]
    split
    · rfl
    · split <;> rfl
  | array items =>
    simp only [renameItems, numberEnv, numberEnvEach_map (unnumbered_renameItem f)]
  | _ => simp [renameItems, numberEnv]

theorem unnumbered_renameDefault (f : String → String) : Unnumbered (renameDefault f) := by
  intro n v
  cases v with
  | call name args =>
    simp only [renameDefault, renameItem, numberEnv]
    split
    · rfl
    · split <;> rfl
  | array items =>
    simp only [renameDefault, numberEnv, numberEnvEach_map (unnumbered_renameItem f)]
  | path segments => exact unnumbered_renameItem f n (.path segments)
  | _ => simp [renameDefault, renameItem, numberEnv]

@[simp] theorem string?_numberEnv (n : Nat) (v : Value) : (v.numberEnv n).1.string? = v.string? := by
  cases v with
  | call name args =>
    simp only [numberEnv]
    split
    · rfl
    · split <;> rfl
  | _ => simp [numberEnv, string?]

end Value

namespace Argument

theorem unnumbered_isNamed (name : String) : Unnumbered (·.isNamed name) := fun _ _ => rfl

theorem unnumbered_namesRelation : Unnumbered Attribute.namesRelation := by
  intro n a
  simp [Attribute.namesRelation]

theorem numberEnvEach_cons (n : Nat) (a : Argument) (rest : List Argument) :
    numberEnvEach n (a :: rest) =
      (a.mapValue (fun v => (v.numberEnv n).1) :: (numberEnvEach (a.value.numberEnv n).2 rest).1,
        (numberEnvEach (a.value.numberEnv n).2 rest).2) := by
  cases a
  rfl

theorem numberEnvEach_mapFirst {p : Argument → Bool} {f : Value → Value} (hp : Unnumbered p)
    (hf : Value.Unnumbered f) : ∀ (n : Nat) (args : List Argument),
    numberEnvEach n (mapFirst p f args) =
      (mapFirst p f (numberEnvEach n args).1, (numberEnvEach n args).2)
  | _, [] => rfl
  | n, a :: rest => by
    by_cases h : p a = true
    · have h' : p (a.mapValue fun v => (v.numberEnv n).1) = true := (hp n a).trans h
      simp [mapFirst, h, h', numberEnvEach_cons, hf n]
    · have h' : ¬p (a.mapValue fun v => (v.numberEnv n).1) = true := by rwa [hp n a]
      simp [mapFirst, h, h', numberEnvEach_cons, numberEnvEach_mapFirst hp hf _ rest]

theorem numberEnvEach_mapHead {f : Value → Value} (hf : Value.Unnumbered f) (n : Nat)
    (args : List Argument) : numberEnvEach n (mapHead f args) =
      (mapHead f (numberEnvEach n args).1, (numberEnvEach n args).2) := by
  cases args with
  | nil => rfl
  | cons a rest => simp [mapHead, numberEnvEach_cons, hf n]

theorem numberEnvEach_map {f : Argument → Argument}
    (hf : ∀ n a, (f a).value.numberEnv n =
        ((f (a.mapValue fun v => (v.numberEnv n).1)).value, (a.value.numberEnv n).2) ∧
      (f a).mapValue (fun v => (v.numberEnv n).1) = f (a.mapValue fun v => (v.numberEnv n).1)) :
    ∀ (n : Nat) (args : List Argument),
      numberEnvEach n (args.map f) = ((numberEnvEach n args).1.map f, (numberEnvEach n args).2)
  | _, [] => rfl
  | n, a :: rest => by
    rw [List.map_cons, numberEnvEach_cons, (hf n a).2, (hf n a).1, numberEnvEach_cons]
    simp [numberEnvEach_map hf _ rest]

@[simp] theorem any_isNamed_numberEnvEach (name : String) : ∀ (n : Nat) (args : List Argument),
    (numberEnvEach n args).1.any (·.isNamed name) = args.any (·.isNamed name)
  | _, [] => rfl
  | n, a :: rest => by
    simp [numberEnvEach_cons, any_isNamed_numberEnvEach name _ rest]

end Argument

namespace Attribute

variable {ρ : Renaming} {model : String} {type : FieldType}

@[simp] theorem mapArgs_name (f : List Argument → List Argument) (a : Attribute) :
    (a.mapArgs f).name = a.name := rfl

@[simp] theorem mapArgs_span (f : List Argument → List Argument) (a : Attribute) :
    (a.mapArgs f).span = a.span := rfl

@[simp] theorem mapArgs_args (f : List Argument → List Argument) (a : Attribute) :
    (a.mapArgs f).args = f a.args := rfl

@[simp] theorem mapArgs_is (f : List Argument → List Argument) (a : Attribute) (name : String) :
    (a.mapArgs f).is name = a.is name := rfl

@[simp] theorem numberEnv_is (n : Nat) (a : Attribute) (name : String) :
    (a.numberEnv n).1.is name = a.is name := rfl

@[simp] theorem numberEnv_hasArg (n : Nat) (a : Attribute) (name : String) :
    (a.numberEnv n).1.hasArg name = a.hasArg name :=
  Argument.any_isNamed_numberEnvEach name n a.args

@[simp] theorem numberEnv_declaresRelation (n : Nat) (a : Attribute) :
    (a.numberEnv n).1.declaresRelation = a.declaresRelation := by
  simp [declaresRelation]

theorem numberEnv_mapArgs {f : List Argument → List Argument} {n : Nat} {a : Attribute}
    (h : Argument.numberEnvEach n (f a.args) =
      (f (Argument.numberEnvEach n a.args).1, (Argument.numberEnvEach n a.args).2)) :
    (a.mapArgs f).numberEnv n = ((a.numberEnv n).1.mapArgs f, (a.numberEnv n).2) := by
  simp [numberEnv, mapArgs, h]

theorem numberEnv_renameDeclared (n : Nat) (a : Attribute) :
    (a.renameDeclared ρ model).numberEnv n =
      ((a.numberEnv n).1.renameDeclared ρ model, (a.numberEnv n).2) := by
  simp only [renameDeclared, numberEnv_is, numberEnv_declaresRelation]
  by_cases h : (a.is "relation" && a.declaresRelation) = true
  · simp only [h, ↓reduceIte]
    exact numberEnv_mapArgs (Argument.numberEnvEach_mapFirst Argument.unnumbered_namesRelation
      (Value.unnumbered_mapString _) _ _)
  · simp [h]

theorem numberEnv_renameReferences (n : Nat) (a : Attribute) :
    (a.renameReferences ρ model type).numberEnv n =
      ((a.numberEnv n).1.renameReferences ρ model type, (a.numberEnv n).2) := by
  have items := fun (x : String) (f : String → String) (args : List Argument) =>
    Argument.numberEnvEach_mapFirst (Argument.unnumbered_isNamed x)
      (Value.unnumbered_renameItems f) n args
  simp only [renameReferences, numberEnv_is, numberEnv_declaresRelation]
  by_cases h : a.is "default" = true
  · simp only [h, ↓reduceIte]
    exact numberEnv_mapArgs (Argument.numberEnvEach_mapHead (Value.unnumbered_renameDefault _) _ _)
  by_cases h' : a.is "relation" = true
  · simp only [h, h', ↓reduceIte]
    refine numberEnv_mapArgs ?_
    unfold renameRelationArgs
    split
    · rw [renameListArgs, items, items]
      rfl
    · exact Argument.numberEnvEach_mapFirst Argument.unnumbered_namesRelation
        (Value.unnumbered_mapString _) _ _
  · simp [h, h']

theorem numberEnv_renameKeys (n : Nat) (a : Attribute) :
    (a.renameKeys ρ model).numberEnv n =
      ((a.numberEnv n).1.renameKeys ρ model, (a.numberEnv n).2) := by
  simp only [renameKeys, numberEnv_is]
  by_cases h : a.is "unique" = true
  · simp only [h, ↓reduceIte]
    refine numberEnv_mapArgs (Argument.numberEnvEach_map (fun k arg => ?_) _ _)
    have hk : (arg.mapValue fun v => (v.numberEnv k).1).namesKey = arg.namesKey := rfl
    have hv := Value.unnumbered_mapString (ρ.field model) k
    rw [hk]
    split
    · exact ⟨by simp [hv], by simp [hv]⟩
    · exact ⟨rfl, rfl⟩
  · simp [h]

theorem numberEnv_renameLists (n : Nat) (a : Attribute) :
    (a.renameLists ρ model).numberEnv n =
      ((a.numberEnv n).1.renameLists ρ model, (a.numberEnv n).2) := by
  have hv := Value.unnumbered_renameItems (ρ.field model)
  simp only [renameLists, numberEnv_is]
  by_cases h : (a.is "index" || a.is "id") = true
  · simp only [h, ↓reduceIte]
    exact numberEnv_mapArgs (Argument.numberEnvEach_mapHead hv _ _)
  by_cases h' : a.is "unique" = true
  · simp only [h, h', ↓reduceIte]
    refine numberEnv_mapArgs (Argument.numberEnvEach_map (fun k arg => ?_) _ _)
    exact ⟨by simp [hv k], by simp [hv k]⟩
  · simp [h, h']

end Attribute

end Pseudonym

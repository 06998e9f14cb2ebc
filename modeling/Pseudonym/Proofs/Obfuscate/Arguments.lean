/-
# Arguments with a property

Both steps of an obfuscation change the first argument with a property and
leave all others: the one called `fields`, say, or the one that names a
relation. Such changes at different arguments do not see one another, and a
later change at the same argument wins.
-/
import Pseudonym.Obfuscate.References

namespace Pseudonym

namespace Argument

/-- The argument with its value changed. -/
def mapValue (f : Value → Value) (a : Argument) : Argument := { a with value := f a.value }

@[simp] theorem mapValue_name (f : Value → Value) (a : Argument) : (a.mapValue f).name = a.name := rfl

@[simp] theorem mapValue_value (f : Value → Value) (a : Argument) :
    (a.mapValue f).value = f a.value := rfl

@[simp] theorem mapValue_isNamed (f : Value → Value) (a : Argument) (name : String) :
    (a.mapValue f).isNamed name = a.isNamed name := rfl

@[simp] theorem mapValue_isPositional (f : Value → Value) (a : Argument) :
    (a.mapValue f).isPositional = a.isPositional := rfl

@[simp] theorem mapValue_mapValue (f g : Value → Value) (a : Argument) :
    (a.mapValue f).mapValue g = a.mapValue fun v => g (f v) := rfl

theorem mapValue_congr {f g : Value → Value} {a : Argument} (h : f a.value = g a.value) :
    a.mapValue f = a.mapValue g := by
  simp [mapValue, h]

/-- Changes the value of the first argument with a property. -/
def mapFirst (holds : Argument → Bool) (f : Value → Value) : List Argument → List Argument
  | [] => []
  | a :: rest => if holds a then a.mapValue f :: rest else a :: mapFirst holds f rest

theorem setFirst_eq_mapFirst (holds : Argument → Bool) (v : Value) : ∀ args : List Argument,
    setFirst holds v args = mapFirst holds (fun _ => v) args
  | [] => rfl
  | a :: rest => by
    simp only [setFirst, mapFirst, setFirst_eq_mapFirst holds v rest]
    rfl

variable {p q : Argument → Bool} {f g : Value → Value}

/-- No argument has both properties, and changing one with the first property does not give it
the second. -/
def Excludes (p q : Argument → Bool) (f : Value → Value) : Prop :=
  ∀ a, p a = true → q a = false ∧ q (a.mapValue f) = false

theorem mapFirst_mapFirst (hp : ∀ a, p a = true → p (a.mapValue f) = true) : ∀ args,
    mapFirst p g (mapFirst p f args) = mapFirst p (fun v => g (f v)) args
  | [] => rfl
  | a :: rest => by
    by_cases h : p a = true
    · simp [mapFirst, h, hp a h]
    · simp [mapFirst, h, mapFirst_mapFirst hp rest]

theorem mapFirst_comm (hf : Excludes p q f) (hg : Excludes q p g) : ∀ args,
    mapFirst p f (mapFirst q g args) = mapFirst q g (mapFirst p f args)
  | [] => rfl
  | a :: rest => by
    have ih := mapFirst_comm hf hg rest
    by_cases hp : p a = true
    · simp [mapFirst, hp, (hf a hp).1, (hf a hp).2]
    · by_cases hq : q a = true
      · simp [mapFirst, hp, hq, (hg a hq).2]
      · simp [mapFirst, hp, hq, ih]

theorem mapFirst_congr (h : ∀ a, p a = true → f a.value = g a.value) : ∀ args,
    mapFirst p f args = mapFirst p g args
  | [] => rfl
  | a :: rest => by
    by_cases hp : p a = true
    · simp [mapFirst, hp, mapValue_congr (h a hp)]
    · simp [mapFirst, hp, mapFirst_congr h rest]

/-- Of two changes at an argument only what they do to that argument matters. -/
theorem mapFirst_congr_found : ∀ {args : List Argument},
    (∀ arg, args.find? p = some arg → f arg.value = g arg.value) →
      mapFirst p f args = mapFirst p g args
  | [], _ => rfl
  | arg :: rest, h => by
    by_cases hp : p arg = true
    · rw [mapFirst, mapFirst, if_pos hp, if_pos hp,
        mapValue_congr (h arg (List.find?_cons_of_pos hp))]
    · rw [mapFirst, mapFirst, if_neg hp, if_neg hp,
        mapFirst_congr_found fun found hfound => h found (by rwa [List.find?_cons_of_neg hp])]

theorem mapFirst_id (h : ∀ a, p a = true → f a.value = a.value) : ∀ args,
    mapFirst p f args = args
  | [] => rfl
  | a :: rest => by
    by_cases hp : p a = true
    · have ha : a.mapValue f = a := by
        cases a
        exact congrArg (Argument.mk _ · _) (h _ hp)
      simp [mapFirst, hp, ha]
    · simp [mapFirst, hp, mapFirst_id h rest]

theorem find?_mapFirst (hp : ∀ a, p a = true → p (a.mapValue f) = true) : ∀ args,
    (mapFirst p f args).find? p = (args.find? p).map (·.mapValue f)
  | [] => rfl
  | a :: rest => by
    by_cases h : p a = true
    · simp [mapFirst, h, hp a h]
    · simp [mapFirst, h, find?_mapFirst hp rest]

theorem find?_mapFirst_of_excludes (hf : Excludes p q f) : ∀ args,
    (mapFirst p f args).find? q = args.find? q
  | [] => rfl
  | a :: rest => by
    by_cases h : p a = true
    · simp [mapFirst, h, (hf a h).1, (hf a h).2]
    · rw [mapFirst, if_neg h, List.find?_cons, List.find?_cons, find?_mapFirst_of_excludes hf rest]

@[simp] theorem any_isNamed_mapFirst (p : Argument → Bool) (f : Value → Value) (name : String) :
    ∀ args, (mapFirst p f args).any (·.isNamed name) = args.any (·.isNamed name)
  | [] => rfl
  | a :: rest => by
    by_cases h : p a = true <;> simp [mapFirst, h, any_isNamed_mapFirst p f name rest]

@[simp] theorem isEmpty_mapFirst (p : Argument → Bool) (f : Value → Value) (args : List Argument) :
    (mapFirst p f args).isEmpty = args.isEmpty := by
  cases args with
  | nil => rfl
  | cons a rest => by_cases h : p a = true <;> simp [mapFirst, h]

theorem isNamed_iff {a : Argument} {x : String} :
    a.isNamed x = true ↔ ∃ i, a.name = some i ∧ i.name = x := by
  unfold isNamed
  cases a.name <;> simp

theorem isNamed_excludes {x y : String} (h : x ≠ y) (f : Value → Value) :
    Excludes (·.isNamed x) (·.isNamed y) f := by
  intro a ha
  obtain ⟨i, hi, rfl⟩ := isNamed_iff.mp ha
  have hy : a.isNamed y = false := by simpa [isNamed, hi] using h
  exact ⟨hy, hy⟩

theorem isNamed_excludes_namesRelation {x : String} (h : x ≠ "name") (f : Value → Value) :
    Excludes (·.isNamed x) Attribute.namesRelation f := by
  intro a ha
  have h1 : a.isNamed "name" = false := (isNamed_excludes h f a ha).1
  obtain ⟨i, hi, -⟩ := isNamed_iff.mp ha
  have h2 : a.isPositional = false := by simp [isPositional, hi]
  simp [Attribute.namesRelation, h1, h2]

theorem namesRelation_excludes {x : String} (h : x ≠ "name") (f : Value → Value) :
    Excludes Attribute.namesRelation (·.isNamed x) f := by
  intro a ha
  have hx : a.isNamed x = false := by
    cases hx : a.isNamed x with
    | false => rfl
    | true =>
      have h1 := (isNamed_excludes_namesRelation h f a hx).1
      rw [ha] at h1
      cases h1
  exact ⟨hx, hx⟩

end Argument

namespace Attribute

/-- An attribute has one name only. -/
theorem is_of_ne {a : Attribute} {x y : String} (h : a.is x = true) (hne : x ≠ y) :
    a.is y = false := by
  simp only [is, beq_iff_eq] at h
  simpa [is, h] using hne

end Attribute

end Pseudonym

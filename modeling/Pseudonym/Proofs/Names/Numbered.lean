/-
# Numbered names

The names that a registry gives out are a stem and a number, so they are as
distinct as their numbers. A table of such names is determined by the list of
the names it replaces: the `i`-th of them has the `i`-th new name
(`Table.numbered`). A table of scopes is determined by the list of their
owners in the same way (`Table.indexed`).
-/
import Std.Data.String.ToNat
import Pseudonym.Names.Registry

namespace Pseudonym

/-! ### Distinct numbers make distinct names -/

theorem stem_inj (stem : String) {i j : Nat} (h : stem ++ toString i = stem ++ toString j) :
    i = j :=
  Nat.repr_inj.mp (String.append_right_inj stem |>.mp h)

theorem modelName_inj {i j : Nat} (h : modelName i = modelName j) : i = j := stem_inj _ h

theorem enumName_inj {i j : Nat} (h : enumName i = enumName j) : i = j := stem_inj _ h

theorem fieldName_inj {i j : Nat} (h : fieldName i = fieldName j) : i = j := stem_inj _ h

theorem valueName_inj {i j : Nat} (h : valueName i = valueName j) : i = j := stem_inj _ h

theorem relationName_inj {model : String} {i j : Nat}
    (h : relationName model i = relationName model j) : i = j := stem_inj _ h

theorem modelName_head (i : Nat) : (modelName i).toList.head? = some 'm' := by
  simp [modelName, toString]

theorem enumName_head (i : Nat) : (enumName i).toList.head? = some 'E' := by
  simp [enumName, toString]

theorem modelName_ne_enumName (i j : Nat) : modelName i ≠ enumName j := by
  intro h
  have h1 := modelName_head i
  rw [h, enumName_head] at h1
  simp at h1

theorem unsupported_ne_modelName (i : Nat) : "Unsupported" ≠ modelName i := by
  intro h
  have h1 := modelName_head i
  rw [← h] at h1
  simp at h1

theorem empty_ne_modelName (i : Nat) : "" ≠ modelName i := by
  intro h
  have h1 := modelName_head i
  rw [← h] at h1
  simp at h1

theorem unsupported_ne_enumName (i : Nat) : "Unsupported" ≠ enumName i := by
  intro h
  have h1 := enumName_head i
  rw [← h] at h1
  simp at h1

namespace Table

variable {α β : Type}

@[simp] theorem size_empty : (empty : Table α).size = 0 := rfl

/-! ### Tables of numbered names -/

/-- The table in which the `i`-th of some names has the entry `stem i`. -/
def numbered (stem : Nat → String) (names : List String) : Table String :=
  ⟨names.mapIdx fun i name => (name, stem i)⟩

@[simp] theorem numbered_nil (stem : Nat → String) : numbered stem [] = .empty := rfl

@[simp] theorem size_numbered (stem : Nat → String) (names : List String) :
    (numbered stem names).size = names.length := by
  simp [numbered, size]

theorem push_numbered (stem : Nat → String) (names : List String) (name : String) :
    (numbered stem names).push name (stem names.length) = numbered stem (names ++ [name]) := by
  simp [numbered, push]

/-- A name has the entry with the number of its first place in the list. -/
theorem get?_numbered (stem : Nat → String) (name : String) : ∀ names : List String,
    (numbered stem names).get? name =
      if name ∈ names then some (stem (names.idxOf name)) else none
  | [] => by simp [numbered, get?]
  | first :: rest => by
    have ih := get?_numbered (fun i => stem (i + 1)) name rest
    simp only [numbered, get?, List.mapIdx_cons, List.lookup_cons] at ih ⊢
    by_cases h : name = first
    · subst h
      simp
    · have hb : (name == first) = false := by simpa using h
      rw [hb, ih, List.idxOf_cons, beq_false_of_ne (Ne.symm h)]
      simp [h]

@[simp] theorem contains_numbered (stem : Nat → String) (names : List String) (name : String) :
    (numbered stem names).contains name = decide (name ∈ names) := by
  by_cases h : name ∈ names <;> simp [contains, get?_numbered, h]

/-! ### Tables of scopes -/

/-- The table in which the `i`-th of some owners has its entry under the name `key i`. -/
def indexed (key : Nat → String) (entry : Nat → α → β) (owners : List α) : Table β :=
  ⟨owners.mapIdx fun i a => (key i, entry i a)⟩

theorem push_indexed (key : Nat → String) (entry : Nat → α → β) (owners : List α) (a : α) :
    (indexed key entry owners).push (key owners.length) (entry owners.length a) =
      indexed key entry (owners ++ [a]) := by
  simp [indexed, push]

/-- The entry of the `k`-th name is that of the `k`-th owner. -/
theorem get?_indexed (k : Nat) : ∀ (owners : List α) (key : Nat → String) (entry : Nat → α → β),
    (∀ i j, key i = key j → i = j) →
    (indexed key entry owners).get? (key k) = owners[k]?.map (entry k) := by
  induction k with
  | zero =>
    intro owners key entry _
    cases owners <;> simp [indexed, get?]
  | succ k ih =>
    intro owners key entry hk
    cases owners with
    | nil => simp [indexed, get?]
    | cons a rest =>
      have hne : (key (k + 1) == key 0) = false := by
        simpa using fun h => absurd (hk _ _ h) (by omega)
      have ih' := ih rest (fun i => key (i + 1)) (fun i => entry (i + 1))
        fun i j h => Nat.succ.inj (hk _ _ h)
      simp only [indexed, get?, List.mapIdx_cons, List.lookup_cons, hne] at ih' ⊢
      simpa using ih'

theorem get?_indexed_of_ne {key : Nat → String} (entry : Nat → α → β) (owners : List α)
    {name : String} (h : ∀ i, name ≠ key i) : (indexed key entry owners).get? name = none := by
  simp only [get?, indexed, List.lookup_eq_none_iff, List.mem_mapIdx]
  rintro p ⟨i, hi, rfl⟩
  simpa using h i

theorem contains_indexed {key : Nat → String} (hk : ∀ i j, key i = key j → i = j)
    (entry : Nat → α → β) (owners : List α) (k : Nat) :
    (indexed key entry owners).contains (key k) = decide (k < owners.length) := by
  rw [contains, get?_indexed k owners key entry hk]
  by_cases h : k < owners.length <;> simp [h]

/-- Replacing the last entry leaves those before it. -/
theorem set_concat {before : List (String × α)} {name : String} (h : ∀ p ∈ before, p.1 ≠ name)
    (a b : α) : (Table.mk (before ++ [(name, a)])).set name b = ⟨before ++ [(name, b)]⟩ := by
  have hc : (Table.mk (before ++ [(name, a)])).contains name = true := by
    simp [contains, get?]
  have hm : before.map (fun e => if e.1 = name then (e.1, b) else e) = before :=
    (List.map_congr_left fun p hp => if_neg (h p hp)).trans (List.map_id' before)
  simp [set, hc, hm]

/-- A name that is not there yet is put in behind the others. -/
theorem set_new {before : List (String × α)} {name : String} (h : ∀ p ∈ before, p.1 ≠ name)
    (b : α) : (Table.mk before).set name b = ⟨before ++ [(name, b)]⟩ := by
  have hc : (Table.mk before).contains name = false := by
    simp only [contains, get?, Option.isSome_eq_false_iff, Option.isNone_iff_eq_none,
      List.lookup_eq_none_iff]
    exact fun p hp => by simpa using (h p hp).symm
  simp [set, hc, push]

theorem keys_mapIdx_ne {key : Nat → String} (hk : ∀ i j, key i = key j → i = j)
    (entry : Nat → α → β) (owners : List α) :
    ∀ p ∈ owners.mapIdx (fun i a => (key i, entry i a)), p.1 ≠ key owners.length := by
  intro p hp
  obtain ⟨i, hi, rfl⟩ := List.mem_mapIdx.mp hp
  exact fun h => absurd (hk _ _ h) (by omega)

/-- Replacing the entry of the last owner. -/
theorem set_indexed_concat {key : Nat → String} (hk : ∀ i j, key i = key j → i = j)
    (entry : Nat → α → β) (owners : List α) (a b : α) :
    (indexed key entry (owners ++ [a])).set (key owners.length) (entry owners.length b) =
      indexed key entry (owners ++ [b]) := by
  simp only [indexed, List.mapIdx_concat]
  exact set_concat (keys_mapIdx_ne hk entry owners) _ _

end Table

/-- The scope in which the `i`-th of some names has the entry `stem i`. -/
def Scope.numbered (stem : Nat → String) (names : List String) : Scope :=
  ⟨.numbered stem names, names.length⟩

@[simp] theorem Scope.names_numbered (stem : Nat → String) (names : List String) :
    (Scope.numbered stem names).names = .numbered stem names := rfl

end Pseudonym

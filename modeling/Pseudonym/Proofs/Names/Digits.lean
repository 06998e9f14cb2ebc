/-
# Numbers inside names

The name of a relation has two numbers in it, the one of its model and its
own: `model_name_1_relation_12`. A number ends where something else than a
digit follows, so both can be read off the name, and names with other numbers
are other names, although `model_name_1` begins `model_name_11`.
-/
import Pseudonym.Proofs.Names.Numbered

namespace Pseudonym

variable {i j k l : Nat} {rest rest' : List Char}

/-- What follows is no further digit of a number. -/
def EndsNumber (rest : List Char) : Prop := ∀ c ∈ rest.head?, c.isDigit = false

theorem endsNumber_nil : EndsNumber [] := by
  intro c hc
  cases hc

theorem endsNumber_cons {c : Char} (h : c.isDigit = false) (rest : List Char) :
    EndsNumber (c :: rest) := by
  intro d hd
  cases hd
  exact h

theorem isDigit_of_mem_toString {c : Char} (h : c ∈ (toString i).toList) : c.isDigit = true := by
  have htext : (toString i).toList = Nat.toDigits 10 i := Nat.toList_repr
  rw [htext] at h
  exact Nat.isDigit_of_mem_toDigits (by decide) (by decide) h

/-- The digits up to the end of a number are all of its digits. -/
theorem takeWhile_number (i : Nat) (h : EndsNumber rest) :
    ((toString i).toList ++ rest).takeWhile Char.isDigit = (toString i).toList := by
  rw [List.takeWhile_append_of_pos fun c hc => isDigit_of_mem_toString hc]
  cases rest with
  | nil => simp
  | cons c rest => simp [h c rfl]

theorem dropWhile_number (i : Nat) (h : EndsNumber rest) :
    ((toString i).toList ++ rest).dropWhile Char.isDigit = rest := by
  rw [List.dropWhile_append_of_pos fun c hc => isDigit_of_mem_toString hc]
  cases rest with
  | nil => simp
  | cons c rest => simp [h c rfl]

/-- A stem, a number and what follows determine the number and what follows. -/
theorem numbered_append_inj (stem : String) {r r' : String} (hr : EndsNumber r.toList)
    (hr' : EndsNumber r'.toList) (h : stem ++ toString i ++ r = stem ++ toString j ++ r') :
    i = j ∧ r = r' := by
  have hlist : (toString i).toList ++ r.toList = (toString j).toList ++ r'.toList := by
    rw [String.append_assoc, String.append_assoc, String.append_right_inj] at h
    simpa using congrArg String.toList h
  have hnumber := congrArg (List.takeWhile Char.isDigit) hlist
  have hrest := congrArg (List.dropWhile Char.isDigit) hlist
  rw [takeWhile_number i hr, takeWhile_number j hr'] at hnumber
  rw [dropWhile_number i hr, dropWhile_number j hr'] at hrest
  exact ⟨Nat.repr_inj.mp (String.toList_inj.mp hnumber), String.toList_inj.mp hrest⟩

/-- The name of a relation, cut behind the name of its model. -/
theorem relationName_eq_append (model : String) (k : Nat) :
    relationName model k = model ++ ("_relation_" ++ toString k) := by
  simp [relationName, toString, String.append_assoc]

theorem endsNumber_relation (k : Nat) : EndsNumber ("_relation_" ++ toString k).toList := by
  rw [String.toList_append]
  exact endsNumber_cons (by decide) _

/-- The name of a relation has the number of its model and its own number. -/
theorem relationName_inj₂ (h : relationName (modelName i) k = relationName (modelName j) l) :
    i = j ∧ k = l := by
  rw [relationName_eq_append, relationName_eq_append] at h
  obtain ⟨hmodel, hrest⟩ :=
    numbered_append_inj "model_name_" (endsNumber_relation k) (endsNumber_relation l) h
  exact ⟨hmodel, stem_inj _ hrest⟩

end Pseudonym

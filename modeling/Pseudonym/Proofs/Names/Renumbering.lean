/-
# Other numbers in the same names

A renumbering gives models, enums and environment variables other numbers. It
is applied to names as texts: the number behind the stem is replaced, and all
that follows it stays, so that `model_name_3_relation_1` keeps the number of
the relation.
-/
import Pseudonym.Proofs.Names.Digits

namespace Pseudonym

/-- Replaces the number behind a stem, in a text that begins with the stem and a number. -/
def renumberAfter (stem : String) (f : Nat → Nat) (text : String) : Option String :=
  let digits := (text.toList.drop stem.toList.length).takeWhile Char.isDigit
  let rest := (text.toList.drop stem.toList.length).dropWhile Char.isDigit
  if stem.toList.isPrefixOf text.toList && !digits.isEmpty then
    some (stem ++ toString (f (Nat.ofDigitChars 10 digits 0)) ++ String.ofList rest)
  else none

/-- Other numbers for models, enums and environment variables. -/
structure Renumbering where
  model : Nat → Nat
  enum : Nat → Nat
  envVar : Nat → Nat

namespace Renumbering

/-- A name with the number of its model or its enum replaced. -/
def name (x : Renumbering) (text : String) : String :=
  ((renumberAfter "model_name_" x.model text).or (renumberAfter "ENUM_" x.enum text)).getD text

/-- The name of an environment variable with its number replaced. -/
def envName (x : Renumbering) (text : String) : String :=
  (renumberAfter "ENV_" x.envVar text).getD text

end Renumbering

/-! ### Names that were given out -/

theorem renumberAfter_numbered (stem : String) (f : Nat → Nat) (i : Nat) (rest : String)
    (h : EndsNumber rest.toList) :
    renumberAfter stem f (stem ++ toString i ++ rest) = some (stem ++ toString (f i) ++ rest) := by
  have htext : (stem ++ toString i ++ rest).toList =
      stem.toList ++ ((toString i).toList ++ rest.toList) := by
    rw [String.toList_append, String.toList_append, List.append_assoc]
  have hdigits : (toString i).toList = Nat.toDigits 10 i := Nat.toList_repr
  have hne : (toString i).toList.isEmpty = false := by
    rw [hdigits, List.isEmpty_eq_false_iff]
    exact Nat.toDigits_ne_nil
  have hstem :
      stem.toList.isPrefixOf (stem.toList ++ ((toString i).toList ++ rest.toList)) = true :=
    List.isPrefixOf_iff_prefix.mpr (List.prefix_append _ _)
  simp only [renumberAfter, htext, List.drop_left, takeWhile_number i h, dropWhile_number i h, hne,
    hstem, Bool.not_false, Bool.and_self, ↓reduceIte, String.ofList_toList]
  rw [hdigits, Nat.ofDigitChars_ten_toDigits]

theorem renumberAfter_of_head {stem text : String} {f : Nat → Nat}
    (h : stem.toList.head? ≠ text.toList.head?) (hstem : stem.toList ≠ []) :
    renumberAfter stem f text = none := by
  have hno : stem.toList.isPrefixOf text.toList = false := by
    rw [← Bool.not_eq_true, List.isPrefixOf_iff_prefix]
    rintro ⟨more, hmore⟩
    obtain ⟨c, cs, hc⟩ := List.exists_cons_of_ne_nil hstem
    rw [← hmore, hc] at h
    exact h rfl
  simp only [renumberAfter, hno, Bool.false_and, Bool.false_eq_true, ↓reduceIte]

namespace Renumbering

variable (x : Renumbering) (i : Nat)

/-- In what begins with the name of a model, the number of the model is replaced. -/
theorem name_modelName_append (rest : String) (h : EndsNumber rest.toList) :
    x.name (modelName i ++ rest) = modelName (x.model i) ++ rest := by
  have hname : renumberAfter "model_name_" x.model (modelName i ++ rest) =
      some (modelName (x.model i) ++ rest) := renumberAfter_numbered "model_name_" x.model i rest h
  rw [name, hname, Option.some_or, Option.getD_some]

theorem name_modelName : x.name (modelName i) = modelName (x.model i) := by
  have h := x.name_modelName_append i "" endsNumber_nil
  rwa [String.append_empty, String.append_empty] at h

theorem name_relationName (k : Nat) :
    x.name (relationName (modelName i) k) = relationName (modelName (x.model i)) k := by
  rw [relationName_eq_append, relationName_eq_append]
  exact x.name_modelName_append i _ (endsNumber_relation k)

theorem name_enumName : x.name (enumName i) = enumName (x.enum i) := by
  have hmodel : renumberAfter "model_name_" x.model (enumName i) = none := by
    refine renumberAfter_of_head ?_ (by decide)
    rw [enumName_head]
    decide
  have henum : renumberAfter "ENUM_" x.enum (enumName i ++ "") = some (enumName (x.enum i) ++ "") :=
    renumberAfter_numbered "ENUM_" x.enum i "" endsNumber_nil
  rw [String.append_empty, String.append_empty] at henum
  rw [name, hmodel, henum, Option.none_or, Option.getD_some]

theorem envName_envName : x.envName (Registry.envName i) = Registry.envName (x.envVar i) := by
  have henv : renumberAfter "ENV_" x.envVar (Registry.envName i ++ "") =
      some (Registry.envName (x.envVar i) ++ "") :=
    renumberAfter_numbered "ENV_" x.envVar i "" endsNumber_nil
  rw [String.append_empty, String.append_empty] at henv
  rw [envName, henv, Option.getD_some]

end Renumbering

end Pseudonym

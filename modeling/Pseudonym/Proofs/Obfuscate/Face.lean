/-
# What the first step leaves to the second

The first step of an obfuscation names environment variables, relations where
they are declared, and unique keys. None of that matters to the second step:
what it reads of an attribute is the attribute's face, in which the arguments
of calls and these names are blanked. The first step keeps the face.
-/
import Pseudonym.Proofs.Obfuscate.Resolving

namespace Pseudonym

/-! ### Values -/

namespace Value

/-- An item of a list, without what stands inside it. -/
def faceItem : Value → Value
  | .call name _ => .call name []
  | .array _ => .array []
  | value => value

/-- A value, without the arguments of calls. -/
def face : Value → Value
  | .array items => .array (items.map faceItem)
  | value => value.faceItem

variable {scope : List String} {type : FieldType} {values : Option (List String)}

theorem faceItem_numberEnv (n : Nat) (v : Value) : (v.numberEnv n).1.faceItem = v.faceItem := by
  cases v with
  | call name args =>
    simp only [numberEnv]
    split
    · rfl
    · split <;> rfl
  | _ => simp [numberEnv, faceItem]

theorem map_faceItem_numberEnvEach : ∀ (n : Nat) (l : List Value),
    (numberEnvEach n l).1.map faceItem = l.map faceItem
  | _, [] => rfl
  | n, v :: l => by
    simp only [numberEnvEach, List.map_cons, faceItem_numberEnv, map_faceItem_numberEnvEach _ l]

theorem face_numberEnv (n : Nat) (v : Value) : (v.numberEnv n).1.face = v.face := by
  cases v with
  | array items => simp only [numberEnv, face, map_faceItem_numberEnvEach]
  | call name args =>
    simp only [numberEnv]
    split
    · rfl
    · split <;> rfl
  | _ => simp [numberEnv, face]

@[simp] theorem string?_face (v : Value) : v.face.string? = v.string? := by
  cases v <;> rfl

theorem names_faceItem (v : Value) : v.faceItem.Names scope ↔ v.Names scope := by
  cases v <;> exact Iff.rfl

theorem place?_faceItem (v : Value) : v.faceItem.place? scope = v.place? scope := by
  cases v <;> rfl

theorem suitsItem_faceItem (v : Value) :
    v.faceItem.SuitsItem type values ↔ v.SuitsItem type values := by
  cases v <;> exact Iff.rfl

theorem lists_face (v : Value) : v.face.Lists scope ↔ v.Lists scope := by
  cases v with
  | array items => simp [face, Lists, names_faceItem]
  | _ => exact Iff.rfl

theorem listPlaces_face (v : Value) : v.face.listPlaces scope = v.listPlaces scope := by
  cases v with
  | array items => simp [face, listPlaces, Function.comp_def, place?_faceItem]
  | _ => rfl

theorem suitsDefault_face (v : Value) :
    v.face.SuitsDefault type values ↔ v.SuitsDefault type values := by
  cases v with
  | array items => simp [face, SuitsDefault, suitsItem_faceItem]
  | _ => exact Iff.rfl

theorem defaultPlaces_face (v : Value) : v.face.defaultPlaces scope = v.defaultPlaces scope := by
  cases v with
  | array items => simp [face, defaultPlaces, Function.comp_def, place?_faceItem]
  | _ => rfl

end Value

namespace Argument

/-- An argument, without the arguments of calls. -/
def face (a : Argument) : Argument := a.mapValue .face

@[simp] theorem namesRelation_face (a : Argument) :
    Attribute.namesRelation a.face = Attribute.namesRelation a := by
  simp [face, Attribute.namesRelation]

theorem find?_map_face (x : String) (args : List Argument) :
    (args.map (·.face)).find? (·.isNamed x) = (args.find? (·.isNamed x)).map (·.face) := by
  rw [List.find?_map]
  rfl

theorem any_map_face (x : String) (args : List Argument) :
    (args.map (·.face)).any (·.isNamed x) = args.any (·.isNamed x) := by
  rw [List.any_map]
  rfl

theorem map_face_numberEnvEach : ∀ (n : Nat) (args : List Argument),
    (numberEnvEach n args).1.map face = args.map face
  | _, [] => rfl
  | n, a :: rest => by
    have hface : (a.mapValue fun v => (v.numberEnv n).1).face = a.face := by
      rw [face, mapValue_mapValue]
      exact mapValue_congr (Value.face_numberEnv n a.value)
    rw [numberEnvEach_cons, List.map_cons, List.map_cons, hface, map_face_numberEnvEach _ rest]

end Argument

/-! ### Attributes of fields -/

namespace Attribute

variable {type : FieldType} {sc : FieldScopes} {keys : List String}

/-- Blanks the name of a relation. -/
def blankRelation : List Argument → List Argument :=
  Argument.mapFirst namesRelation (.mapString fun _ => "")

/-- What the second step reads of an attribute of a field. -/
def face (a : Attribute) : Attribute :=
  if a.is "unique" then { a with args := [] }
  else if a.is "relation" && a.declaresRelation then
    a.mapArgs fun args => (blankRelation args).map (·.face)
  else a.mapArgs (.map (·.face))

@[simp] theorem face_name (a : Attribute) : a.face.name = a.name := by
  unfold face
  split
  · rfl
  · split <;> rfl

@[simp] theorem face_is (a : Attribute) (x : String) : a.face.is x = a.is x := by
  rw [is, face_name]
  rfl

theorem face_numberEnv (n : Nat) (a : Attribute) : (a.numberEnv n).1.face = a.face := by
  have hblank : blankRelation (Argument.numberEnvEach n a.args).1 =
      (Argument.numberEnvEach n (blankRelation a.args)).1 :=
    congrArg Prod.fst (Argument.numberEnvEach_mapFirst Argument.unnumbered_namesRelation
      (Value.unnumbered_mapString _) n a.args).symm
  simp only [face, numberEnv_is, numberEnv_declaresRelation]
  simp only [numberEnv, mapArgs, hblank, Argument.map_face_numberEnvEach]

/-- The new name of a relation is not read where it is declared. -/
theorem face_renameRelation {a : Attribute} (hr : a.is "relation" = true)
    (hd : a.declaresRelation = true) (new : String) : (a.renameRelation new).face = a.face := by
  have hi : ∀ x, (a.renameRelation new).is x = a.is x := fun _ => rfl
  have hu : a.is "unique" = false := is_of_ne hr (by decide)
  have hblank : blankRelation (a.renameRelation new).args = blankRelation a.args := by
    simp only [blankRelation, renameRelation, Argument.setFirst_eq_mapFirst]
    rw [Argument.mapFirst_mapFirst]
    · refine Argument.mapFirst_congr (fun arg harg => ?_) _
      obtain ⟨text, ht⟩ := Option.isSome_iff_exists.mp (Bool.and_eq_true_iff.mp harg).2
      cases hv : arg.value with
      | string text => rfl
      | _ => rw [hv] at ht; cases ht
    · intro arg harg
      have hname := (Bool.and_eq_true_iff.mp harg).1
      simpa [namesRelation, Value.string?] using hname
  simp only [face, hi, declaresRelation_renameRelation, hu, hr, hd, Bool.false_eq_true, ↓reduceIte,
    Bool.and_self, mapArgs, hblank]
  rfl

theorem face_of_default {a : Attribute} (h : a.is "default" = true) :
    a.face = a.mapArgs (.map (·.face)) := by
  have hn : a.is "unique" = false ∧ a.is "relation" = false :=
    ⟨is_of_ne h (by decide), is_of_ne h (by decide)⟩
  simp [face, hn]

theorem suitsDefault_face {a : Attribute} (h : a.is "default" = true) :
    a.face.SuitsDefault type sc ↔ a.SuitsDefault type sc := by
  rw [face_of_default h]
  unfold SuitsDefault
  rw [mapArgs_args]
  cases a.args with
  | nil => simp
  | cons first rest =>
    simp only [List.map_cons, List.cons.injEq]
    constructor
    · rintro ⟨_, _, ⟨rfl, rfl⟩, hs⟩
      exact ⟨first, rest, ⟨rfl, rfl⟩, (Value.suitsDefault_face _).mp hs⟩
    · rintro ⟨_, _, ⟨rfl, rfl⟩, hs⟩
      exact ⟨_, _, ⟨rfl, rfl⟩, (Value.suitsDefault_face _).mpr hs⟩

theorem face_of_relation {a : Attribute} (h : a.is "relation" = true) :
    a.face = a.mapArgs fun args =>
      (if a.declaresRelation then blankRelation args else args).map (·.face) := by
  have hu : a.is "unique" = false := is_of_ne h (by decide)
  by_cases hd : a.declaresRelation = true
  · simp [face, hu, h, hd]
  · simp [face, hu, h, hd]

/-- The arguments of a relation that have other names than `name` keep their faces. -/
theorem arg?_face {a : Attribute} (hr : a.is "relation" = true) {x : String} (hx : x ≠ "name") :
    a.face.arg? x = (a.arg? x).map (·.face) := by
  have hblank : (if a.declaresRelation then blankRelation a.args else a.args).find? (·.isNamed x) =
      a.args.find? (·.isNamed x) := by
    split
    · exact Argument.find?_mapFirst_of_excludes (Argument.namesRelation_excludes hx _) _
    · rfl
  rw [face_of_relation hr, arg?, mapArgs_args, Argument.find?_map_face, hblank, arg?,
    Option.map_map, Option.map_map]
  rfl

theorem declaresRelation_face {a : Attribute} (hr : a.is "relation" = true) :
    a.face.declaresRelation = a.declaresRelation := by
  have hany : ∀ x, (if a.declaresRelation then blankRelation a.args else a.args).any (·.isNamed x) =
      a.args.any (·.isNamed x) := by
    intro x
    split
    · exact Argument.any_isNamed_mapFirst _ _ x a.args
    · rfl
  have hhas : ∀ x, a.face.hasArg x = a.hasArg x := by
    intro x
    rw [face_of_relation hr, hasArg, mapArgs_args, Argument.any_map_face, hany]
    rfl
  rw [declaresRelation, hhas, hhas]
  rfl

theorem bareRelation?_face {a : Attribute} (hr : a.is "relation" = true) :
    a.face.bareRelation? = a.bareRelation? := by
  rw [bareRelation?, bareRelation?, declaresRelation_face hr]
  by_cases hd : a.declaresRelation = true
  · rw [if_pos hd, if_pos hd]
  · have hnames : namesRelation ∘ (fun b : Argument => b.face) = namesRelation :=
      funext Argument.namesRelation_face
    rw [if_neg hd, if_neg hd, face_of_relation hr, relationName?, mapArgs_args, if_neg hd,
      List.find?_map, hnames, relationName?]
    cases a.args.find? namesRelation with
    | none => rfl
    | some arg => exact Value.string?_face arg.value

theorem suitsRelation_face {a : Attribute} (hr : a.is "relation" = true) :
    a.face.SuitsRelation sc ↔ a.SuitsRelation sc := by
  have hargs : a.face.args = [] ↔ a.args = [] := by
    rw [face_of_relation hr, mapArgs_args, List.map_eq_nil_iff]
    split
    · rw [← List.isEmpty_iff, ← List.isEmpty_iff, blankRelation, Argument.isEmpty_mapFirst]
    · rfl
  have hlists : ∀ {x scope}, x ≠ "name" → ((∃ v, a.face.arg? x = some v ∧ v.Lists scope) ↔
      ∃ v, a.arg? x = some v ∧ v.Lists scope) := by
    intro x scope hx
    rw [arg?_face hr hx]
    cases a.arg? x <;> simp [Value.lists_face]
  have hmap : (∀ v, a.face.arg? "map" = some v → v.string?.isSome = true) ↔
      ∀ v, a.arg? "map" = some v → v.string?.isSome = true := by
    rw [arg?_face hr (by decide)]
    cases a.arg? "map" <;> simp
  simp only [SuitsRelation, SuitsTarget, SuitsLists, hmap, bareRelation?_face hr, ne_eq, hargs,
    hlists (show "fields" ≠ "name" by decide), hlists (show "references" ≠ "name" by decide)]

theorem suitsField_face (a : Attribute) : a.face.SuitsField type sc ↔ a.SuitsField type sc := by
  simp only [SuitsField, face_is]
  refine and_congr ?_ ?_
  · exact imp_congr_right fun hd => suitsDefault_face hd
  · exact imp_congr_right fun hr => suitsRelation_face hr

theorem places_face (a : Attribute) : a.face.places sc = a.places sc := by
  simp only [places, face_is]
  by_cases hd : a.is "default" = true
  · rw [if_pos hd, if_pos hd, face_of_default hd]
    simp only [firstArg?, mapArgs_args, List.head?_map, Option.map_map]
    cases a.args.head? with
    | none => rfl
    | some first => exact congrArg (fun l => [l]) (Value.defaultPlaces_face _)
  rw [if_neg hd, if_neg hd]
  by_cases hr : a.is "relation" = true
  · rw [if_pos hr, if_pos hr, arg?_face hr (by decide), arg?_face hr (by decide),
      bareRelation?_face hr]
    simp only [Option.map_map, Function.comp_def, Value.listPlaces_face]
  · rw [if_neg hr, if_neg hr]

end Attribute

/-! ### Attributes of models -/

namespace Argument

/-- What the second step reads of an argument of an attribute of a model. -/
def keyFace (a : Argument) : Argument :=
  (if a.namesKey then a.mapValue (.mapString fun _ => "") else a).face

@[simp] theorem keyFace_name (a : Argument) : a.keyFace.name = a.name := by
  unfold keyFace
  split <;> rfl

@[simp] theorem keyFace_isNamed (a : Argument) (x : String) : a.keyFace.isNamed x = a.isNamed x := by
  rw [isNamed, keyFace_name]
  rfl

theorem keyFace_value (a : Argument) :
    a.keyFace.value = a.value.face ∨
      ∃ text, a.value = .string text ∧ a.keyFace.value = .string "" := by
  cases hv : a.value with
  | string text =>
    by_cases hk : a.namesKey = true
    · right
      exact ⟨text, rfl, by simp [keyFace, face, hk, hv, Value.mapString, Value.face, Value.faceItem]⟩
    · left
      simp [keyFace, face, hk, hv]
  | _ =>
    left
    by_cases hk : a.namesKey = true <;> simp [keyFace, face, hk, hv, Value.mapString]

/-- Another string as the name of a key has the same face. -/
theorem keyFace_rename {a : Argument} {old : String} (hk : a.namesKey = true)
    (hv : a.value.string? = some old) (new : String) :
    (a.mapValue fun _ => .string new).keyFace = a.keyFace := by
  have hk' : (a.mapValue fun _ => .string new).namesKey = true := hk
  rw [keyFace, keyFace, if_pos hk, if_pos hk', mapValue_mapValue]
  cases hs : a.value with
  | string text => exact congrArg face (mapValue_congr (by rw [hs]; rfl))
  | _ => rw [hs] at hv; cases hv

theorem lists_keyFace {keys : List String} (a : Argument) :
    a.keyFace.value.Lists keys ↔ a.value.Lists keys := by
  obtain h | ⟨text, ht, h⟩ := a.keyFace_value
  · rw [h, Value.lists_face]
  · rw [h, ht]
    exact Iff.rfl

theorem listPlaces_keyFace {keys : List String} (a : Argument) :
    a.keyFace.value.listPlaces keys = a.value.listPlaces keys := by
  obtain h | ⟨text, ht, h⟩ := a.keyFace_value
  · rw [h, Value.listPlaces_face]
  · rw [h, ht]
    rfl

theorem isSome_string?_keyFace (a : Argument) :
    a.keyFace.value.string?.isSome = a.value.string?.isSome := by
  obtain h | ⟨text, ht, h⟩ := a.keyFace_value
  · rw [h, Value.string?_face]
  · rw [h, ht]
    rfl

theorem isSome_array?_keyFace (a : Argument) :
    a.keyFace.value.array?.isSome = a.value.array?.isSome := by
  obtain h | ⟨text, ht, h⟩ := a.keyFace_value
  · rw [h]
    cases a.value <;> rfl
  · rw [h, ht]
    rfl

theorem keyFace_numberEnv (n : Nat) (a : Argument) :
    (a.mapValue fun v => (v.numberEnv n).1).keyFace = a.keyFace := by
  have hk : (a.mapValue fun v => (v.numberEnv n).1).namesKey = a.namesKey := rfl
  unfold keyFace
  rw [hk]
  split
  · simp only [face, mapValue_mapValue]
    refine mapValue_congr ?_
    have hu := Value.unnumbered_mapString (fun _ => "") n a.value
    rw [← Value.face_numberEnv n (a.value.mapString fun _ => ""), hu]
  · simp only [face, mapValue_mapValue]
    exact mapValue_congr (Value.face_numberEnv n a.value)

theorem map_keyFace_numberEnvEach : ∀ (n : Nat) (args : List Argument),
    (numberEnvEach n args).1.map (·.keyFace) = args.map (·.keyFace)
  | _, [] => rfl
  | n, a :: rest => by
    rw [numberEnvEach_cons, List.map_cons, List.map_cons, keyFace_numberEnv,
      map_keyFace_numberEnvEach _ rest]

end Argument

namespace Attribute

variable {keys : List String}

/-- What the second step reads of an attribute of a model. -/
def keyFace (a : Attribute) : Attribute := a.mapArgs (.map (·.keyFace))

@[simp] theorem keyFace_is (a : Attribute) (x : String) : a.keyFace.is x = a.is x := rfl

theorem keyFace_numberEnv (n : Nat) (a : Attribute) : (a.numberEnv n).1.keyFace = a.keyFace := by
  simp only [keyFace, numberEnv, mapArgs, Argument.map_keyFace_numberEnvEach]

theorem firstLists_keyFace (a : Attribute) : a.keyFace.FirstLists keys ↔ a.FirstLists keys := by
  unfold FirstLists keyFace
  rw [mapArgs_args]
  cases a.args with
  | nil => simp
  | cons first rest => simp [Argument.lists_keyFace]

theorem secondNames_keyFace (a : Attribute) : a.keyFace.SecondNames ↔ a.SecondNames := by
  unfold SecondNames keyFace
  rw [mapArgs_args]
  match a.args with
  | [] => simp
  | [_] => simp
  | first :: second :: rest => simp [Argument.isSome_string?_keyFace]

theorem uniqueLists_keyFace (a : Attribute) : a.keyFace.UniqueLists keys ↔ a.UniqueLists keys := by
  have harray : ∀ (v : Value) (P : Prop), (∀ items, v.array? = some items → P) ↔
      (v.array?.isSome = true → P) := by
    intro v P
    cases v.array? <;> simp
  simp only [UniqueLists, harray, keyFace, mapArgs_args, List.mem_map, forall_exists_index, and_imp,
    forall_apply_eq_imp_iff₂, Argument.isSome_array?_keyFace, Argument.lists_keyFace]

theorem suitsModel_keyFace (a : Attribute) : a.keyFace.SuitsModel keys ↔ a.SuitsModel keys := by
  simp only [SuitsModel, keyFace_is, firstLists_keyFace, secondNames_keyFace, uniqueLists_keyFace]

theorem keyPlaces_keyFace (a : Attribute) : a.keyFace.keyPlaces keys = a.keyPlaces keys := by
  have hfirst : (a.keyFace.firstArg?.map (·.listPlaces keys)).getD [] =
      (a.firstArg?.map (·.listPlaces keys)).getD [] := by
    unfold firstArg? keyFace
    rw [mapArgs_args]
    cases a.args with
    | nil => rfl
    | cons first rest => exact Argument.listPlaces_keyFace first
  have hargs : a.keyFace.args.map (·.value.listPlaces keys) =
      a.args.map (·.value.listPlaces keys) := by
    unfold keyFace
    rw [mapArgs_args, List.map_map]
    exact List.map_congr_left fun arg _ => Argument.listPlaces_keyFace arg
  simp only [keyPlaces, keyFace_is, hfirst, hargs]

end Attribute

end Pseudonym

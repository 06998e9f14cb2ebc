/-
# Obfuscations are well spelled

What an obfuscation writes into a schema belongs to the grammar at the place
where it is written: new names are words, the names of environment variables
and the neutral texts end no string, and neutral literals are literals. So the
obfuscation of a well-spelled schema is well spelled.
-/
import Pseudonym.Proofs.Obfuscate.Unchanged

namespace Pseudonym

/-! ### Words are content -/

theorem isContent_of_isName {w : List Char} (h : isName w = true) : IsContent w := by
  refine ⟨w.map fun x => [x], fun u hu => ?_, ?_⟩
  · obtain ⟨x, hx, rfl⟩ := List.mem_map.mp hu
    have hchar : isNameChar x = true := List.all_eq_true.mp (all_isNameChar_of_isName h) x hx
    refine .inr ⟨x, rfl, ?_, ?_, ?_⟩ <;> (intro heq; rw [heq] at hchar; revert hchar; decide)
  · rw [← List.flatMap_def, List.flatMap_singleton']

theorem IsWord.isContent {w : String} (h : IsWord w) : IsContent w.toList :=
  isContent_of_isName h.isName

theorem Rewords.isName {f : String → String} (hf : Rewords f) {x : String}
    (h : isName x.toList = true) : isName (f x).toList = true := by
  rcases hf x with heq | hw
  · rwa [heq]
  · exact hw.isName

theorem Rewords.isContent {f : String → String} (hf : Rewords f) {x : String}
    (h : IsContent x.toList) : IsContent (f x).toList := by
  rcases hf x with heq | hw
  · rwa [heq]
  · exact hw.isContent

theorem Rewords.notTruth {f : String → String} (hf : Rewords f) {x : String} (ht : x ≠ "true")
    (hf' : x ≠ "false") : f x ≠ "true" ∧ f x ≠ "false" := by
  rcases hf x with heq | hw
  · rw [heq]
    exact ⟨ht, hf'⟩
  · exact hw.notTruth

/-! ### Values -/

namespace Value

variable {f : String → String}

theorem wellSpelled_mapString (hf : Rewords f) {v : Value} (h : v.WellSpelled) :
    (v.mapString f).WellSpelled := by
  cases v with
  | string text => exact hf.isContent h
  | _ => exact h

theorem isSegments_singleton {name : String} :
    IsSegments [name] ↔ isName name.toList = true ∧ name ≠ "true" ∧ name ≠ "false" := by
  constructor
  · rintro ⟨hall, first, hfirst, htrue, hfalse⟩
    simp only [List.head?_cons, Option.mem_some_iff] at hfirst
    exact ⟨hall name (List.mem_singleton.mpr rfl), hfirst ▸ htrue, hfirst ▸ hfalse⟩
  · rintro ⟨hname, htrue, hfalse⟩
    exact ⟨fun x hx => by rwa [List.mem_singleton.mp hx], name, rfl, htrue, hfalse⟩

theorem wellSpelled_renameItem (hf : Rewords f) {v : Value} (h : v.WellSpelled) :
    (v.renameItem f).WellSpelled := by
  cases v with
  | path segments =>
    cases segments with
    | nil => exact h
    | cons name segments =>
      cases segments with
      | nil =>
        obtain ⟨hname, htrue, hfalse⟩ := isSegments_singleton.mp h
        exact isSegments_singleton.mpr ⟨hf.isName hname, hf.notTruth htrue hfalse⟩
      | cons _ _ => exact h
  | _ => exact h

theorem wellSpelledEach_iff (l : List Value) :
    Value.WellSpelledEach l ↔ ∀ v ∈ l, v.WellSpelled := by
  induction l with
  | nil => simp [Value.WellSpelledEach]
  | cons v l ih => simp [Value.WellSpelledEach, ih]

theorem wellSpelledEach_map {g : Value → Value} (hg : ∀ v, v.WellSpelled → (g v).WellSpelled)
    {l : List Value} (h : Value.WellSpelledEach l) : Value.WellSpelledEach (l.map g) := by
  rw [wellSpelledEach_iff] at h ⊢
  exact fun w hw => by
    obtain ⟨v, hv, rfl⟩ := List.mem_map.mp hw
    exact hg v (h v hv)

theorem wellSpelled_renameItems (hf : Rewords f) {v : Value} (h : v.WellSpelled) :
    (v.renameItems f).WellSpelled := by
  cases v with
  | array items => exact wellSpelledEach_map (fun v => wellSpelled_renameItem hf) h
  | _ => exact h

theorem wellSpelled_renameDefault (hf : Rewords f) {v : Value} (h : v.WellSpelled) :
    (v.renameDefault f).WellSpelled := by
  cases v with
  | array items => exact wellSpelledEach_map (fun v => wellSpelled_renameItem hf) h
  | path segments =>
    cases segments with
    | nil => exact h
    | cons name segments =>
      cases segments with
      | nil => exact wellSpelled_renameItem hf h
      | cons _ _ => exact h
  | _ => exact h

end Value

/-! ### Arguments -/

namespace Argument

variable {f : Value → Value}

theorem wellSpelledEach_iff (args : List Argument) : WellSpelledEach args ↔
    ∀ a ∈ args, (∀ ident ∈ a.name, isName ident.name.toList = true) ∧ a.value.WellSpelled := by
  induction args with
  | nil => simp [WellSpelledEach]
  | cons arg rest ih =>
    obtain ⟨name, value, span⟩ := arg
    simp only [WellSpelledEach, ih, List.forall_mem_cons, and_assoc]

theorem wellSpelledEach_mapFirst {p : Argument → Bool} (hf : ∀ v, v.WellSpelled → (f v).WellSpelled)
    {args : List Argument} (h : WellSpelledEach args) : WellSpelledEach (mapFirst p f args) := by
  rw [wellSpelledEach_iff] at h ⊢
  induction args with
  | nil => exact h
  | cons a rest ih =>
    unfold mapFirst
    split
    · intro b hb
      rcases List.mem_cons.mp hb with rfl | hb
      · exact ⟨(h a List.mem_cons_self).1, hf a.value (h a List.mem_cons_self).2⟩
      · exact h b (List.mem_cons_of_mem a hb)
    · intro b hb
      rcases List.mem_cons.mp hb with rfl | hb
      · exact h b List.mem_cons_self
      · exact ih (fun c hc => h c (List.mem_cons_of_mem a hc)) b hb

theorem wellSpelledEach_mapHead (hf : ∀ v, v.WellSpelled → (f v).WellSpelled)
    {args : List Argument} (h : WellSpelledEach args) : WellSpelledEach (mapHead f args) := by
  cases args with
  | nil => exact h
  | cons a rest =>
    rw [wellSpelledEach_iff] at h ⊢
    intro b hb
    unfold mapHead at hb
    rcases List.mem_cons.mp hb with rfl | hb
    · exact ⟨(h a List.mem_cons_self).1, hf a.value (h a List.mem_cons_self).2⟩
    · exact h b (List.mem_cons_of_mem a hb)

theorem wellSpelledEach_map {h : Argument → Argument}
    (hh : ∀ a, (∀ ident ∈ a.name, isName ident.name.toList = true) ∧ a.value.WellSpelled →
      (∀ ident ∈ (h a).name, isName ident.name.toList = true) ∧ (h a).value.WellSpelled)
    {args : List Argument} (hargs : WellSpelledEach args) : WellSpelledEach (args.map h) := by
  rw [wellSpelledEach_iff] at hargs ⊢
  intro b hb
  obtain ⟨a, ha, rfl⟩ := List.mem_map.mp hb
  exact hh a (hargs a ha)

end Argument

/-! ### Types -/

namespace FieldType

variable {f : String → String} {g : String → String → String}

theorem rewords_scope (hg : ∀ name, Rewords (g name)) (type : FieldType) :
    Rewords (type.scope g) := by
  unfold scope
  cases type.reference? with
  | none => exact fun x => .inl rfl
  | some ident => exact hg ident.name

theorem wellSpelled_rename (hf : Rewords f) {type : FieldType} (h : type.WellSpelled) :
    (type.rename f).WellSpelled := by
  cases type with
  | named ident =>
    rw [rename]
    split
    · exact h
    · rcases hf ident.name with heq | hword
      · rw [heq]
        exact h
      · exact ⟨hword.isName, hword.notScalar⟩
  | _ => exact h

end FieldType

/-! ### Attributes -/

namespace Attribute

variable {ρ : Renaming} {model : String} {type : FieldType} {a : Attribute}

theorem wellSpelled_renameDeclared (hρ : ρ.Rewords) (h : a.WellSpelled) :
    (a.renameDeclared ρ model).WellSpelled := by
  unfold renameDeclared
  split
  · exact ⟨h.1, Argument.wellSpelledEach_mapFirst
      (fun v => Value.wellSpelled_mapString (hρ.relation model)) h.2⟩
  · exact h

theorem wellSpelled_renameKeys (hρ : ρ.Rewords) (h : a.WellSpelled) :
    (a.renameKeys ρ model).WellSpelled := by
  unfold renameKeys
  split
  · refine ⟨h.1, Argument.wellSpelledEach_map (fun b hb => ?_) h.2⟩
    split
    · exact ⟨hb.1, Value.wellSpelled_mapString (hρ.field model) hb.2⟩
    · exact hb
  · exact h

theorem wellSpelled_renameListArgs (hρ : ρ.Rewords) (h : Argument.WellSpelledEach a.args) :
    Argument.WellSpelledEach (renameListArgs ρ model type a.args) := by
  unfold renameListArgs
  refine Argument.wellSpelledEach_mapFirst (fun v => Value.wellSpelled_renameItems (hρ.field model))
    (Argument.wellSpelledEach_mapFirst (fun v =>
      Value.wellSpelled_renameItems (type.rewords_scope hρ.field)) h)

theorem wellSpelled_renameRelationArgs (hρ : ρ.Rewords) {declares : Bool}
    (h : Argument.WellSpelledEach a.args) :
    Argument.WellSpelledEach (renameRelationArgs ρ model type declares a.args) := by
  unfold renameRelationArgs
  split
  · exact wellSpelled_renameListArgs hρ h
  · exact Argument.wellSpelledEach_mapFirst
      (fun v => Value.wellSpelled_mapString (type.rewords_scope hρ.relation)) h

theorem wellSpelled_renameReferences (hρ : ρ.Rewords) (h : a.WellSpelled) :
    (a.renameReferences ρ model type).WellSpelled := by
  unfold renameReferences
  split
  · exact ⟨h.1, Argument.wellSpelledEach_mapHead
      (fun v => Value.wellSpelled_renameDefault (type.rewords_scope hρ.value)) h.2⟩
  · split
    · exact ⟨h.1, wellSpelled_renameRelationArgs hρ h.2⟩
    · exact h

theorem wellSpelled_renameLists (hρ : ρ.Rewords) (h : a.WellSpelled) :
    (a.renameLists ρ model).WellSpelled := by
  unfold renameLists
  split
  · exact ⟨h.1, Argument.wellSpelledEach_mapHead
      (fun v => Value.wellSpelled_renameItems (hρ.field model)) h.2⟩
  · split
    · refine ⟨h.1, Argument.wellSpelledEach_map (fun b hb => ?_) h.2⟩
      exact ⟨hb.1, Value.wellSpelled_renameItems (hρ.field model) hb.2⟩
    · exact h

end Attribute

/-! ### Renamed schemas -/

section Renaming

variable {ρ : Renaming} {model : String}

theorem Field.wellSpelled_rename (hρ : ρ.Rewords) {f : Field} (h : f.WellSpelled) :
    ((f.renameDeclared ρ model).renameReferences ρ model).WellSpelled where
  name := (hρ.field model).isName h.name
  type := FieldType.wellSpelled_rename hρ.type h.type
  attributes a ha := by
    obtain ⟨b, hb, rfl⟩ := List.mem_map.mp ha
    obtain ⟨c, hc, rfl⟩ := List.mem_map.mp hb
    exact Attribute.wellSpelled_renameReferences hρ
      (Attribute.wellSpelled_renameDeclared hρ (h.attributes c hc))
  comment := h.comment

theorem ModelMember.wellSpelled_rename (hρ : ρ.Rewords) {member : ModelMember}
    (h : member.WellSpelled) :
    ((member.renameDeclared ρ model).renameReferences ρ model).WellSpelled := by
  cases member with
  | field f => exact Field.wellSpelled_rename hρ h
  | blockAttribute a =>
    exact ⟨Attribute.wellSpelled_renameLists hρ (Attribute.wellSpelled_renameKeys hρ h.attr),
      h.comment⟩
  | comment c => exact h

theorem EnumMember.wellSpelled_rename (hρ : ρ.Rewords) {enum : String} {member : EnumMember}
    (h : member.WellSpelled) : (member.rename ρ enum).WellSpelled := by
  cases member with
  | value v => exact ⟨(hρ.value enum).isName h.name, h.attributes, h.comment⟩
  | blockAttribute a => exact h
  | comment c => exact h

/-- A schema stays well spelled when names are changed to words. -/
theorem Schema.wellSpelled_rename (hρ : ρ.Rewords) {s : Schema} (h : s.WellSpelled) :
    (s.rename ρ).WellSpelled := by
  intro d' hd'
  obtain ⟨d, hd, rfl⟩ := List.mem_map.mp hd'
  have hspelled := h d hd
  cases d with
  | model m =>
    refine ⟨hρ.type.isName hspelled.1, fun member hmember => ?_⟩
    obtain ⟨member₀, hmember₀, rfl⟩ := List.mem_map.mp hmember
    exact ModelMember.wellSpelled_rename hρ (hspelled.2 member₀ hmember₀)
  | enum e =>
    refine ⟨hρ.type.isName hspelled.1, fun member hmember => ?_⟩
    obtain ⟨member₀, hmember₀, rfl⟩ := List.mem_map.mp hmember
    exact EnumMember.wellSpelled_rename hρ (hspelled.2 member₀ hmember₀)
  | config b => exact hspelled
  | comments b => exact hspelled

end Renaming

/-! ### Environment variables -/

theorem isContent_envName (n : Nat) : IsContent (Registry.envName n).toList :=
  (isWord_numbered "ENV_" (by decide) (by decide) n).isContent

mutual

theorem Value.wellSpelled_numberEnv (n : Nat) : ∀ v : Value,
    v.WellSpelled → (v.numberEnv n).1.WellSpelled
  | .call name [], h => by simpa [Value.numberEnv, Argument.numberEnvEach] using h
  | .call name (⟨argName, value, span⟩ :: rest), h => by
    have hargs := Argument.wellSpelled_numberEnvEach n (⟨argName, value, span⟩ :: rest) h.2
    simp only [Argument.numberEnvEach] at hargs
    simp only [Value.numberEnv, Argument.numberEnvEach]
    split
    · exact ⟨h.1, hargs.1, isContent_envName _, hargs.2.2⟩
    · exact ⟨h.1, hargs⟩
  | .array items, h => by
    simp only [Value.numberEnv]
    exact Value.wellSpelled_numberEnvEach n items h
  | .string _, h | .int _, h | .number _, h | .boolean _, h | .path _, h => by
    simpa only [Value.numberEnv] using h

theorem Value.wellSpelled_numberEnvEach (n : Nat) : ∀ l : List Value,
    Value.WellSpelledEach l → Value.WellSpelledEach (Value.numberEnvEach n l).1
  | [], h => h
  | v :: l, h => ⟨Value.wellSpelled_numberEnv n v h.1, Value.wellSpelled_numberEnvEach _ l h.2⟩

theorem Argument.wellSpelled_numberEnvEach (n : Nat) : ∀ args : List Argument,
    Argument.WellSpelledEach args → Argument.WellSpelledEach (Argument.numberEnvEach n args).1
  | [], h => h
  | ⟨_, value, _⟩ :: rest, h =>
    ⟨h.1, Value.wellSpelled_numberEnv n value h.2.1, Argument.wellSpelled_numberEnvEach _ rest h.2.2⟩

end

theorem Attribute.wellSpelled_numberEnv (n : Nat) {a : Attribute} (h : a.WellSpelled) :
    (a.numberEnv n).1.WellSpelled :=
  ⟨h.1, Argument.wellSpelled_numberEnvEach n a.args h.2⟩

/-- What a walk keeps of every item it keeps of all. -/
theorem forall_numberAlong {α β : Type} {f : Nat → α → β × Nat} {P : α → Prop} {Q : β → Prop}
    (hf : ∀ n a, P a → Q (f n a).1) (n : Nat) {l : List α} (h : ∀ a ∈ l, P a) :
    ∀ b ∈ (numberAlong f n l).1, Q b := by
  intro b hb
  obtain ⟨a, ha, m, rfl⟩ := exists_left_of_forall₂ (forall₂_numberAlong n l) hb
  exact hf m a (h a ha)

theorem ModelMember.wellSpelled_numberEnv (n : Nat) (member : ModelMember)
    (h : member.WellSpelled) : (member.numberEnv n).1.WellSpelled := by
  cases member with
  | field f =>
    exact ⟨h.name, h.type,
      forall_numberAlong (fun n _ => Attribute.wellSpelled_numberEnv n) n h.attributes, h.comment⟩
  | blockAttribute a => exact ⟨Attribute.wellSpelled_numberEnv n h.attr, h.comment⟩
  | comment c => exact h

theorem EnumMember.wellSpelled_numberEnv (n : Nat) (member : EnumMember)
    (h : member.WellSpelled) : (member.numberEnv n).1.WellSpelled := by
  cases member with
  | value v =>
    exact ⟨h.name,
      forall_numberAlong (fun n _ => Attribute.wellSpelled_numberEnv n) n h.attributes, h.comment⟩
  | blockAttribute a => exact ⟨Attribute.wellSpelled_numberEnv n h.attr, h.comment⟩
  | comment c => exact h

theorem ConfigMember.wellSpelled_numberEnv (n : Nat) (member : ConfigMember)
    (h : member.WellSpelled) : (member.numberEnv n).1.WellSpelled := by
  cases member with
  | property p => exact ⟨h.name, Value.wellSpelled_numberEnv n p.value h.value, h.comment⟩
  | comment c => exact h

theorem Declaration.wellSpelled_numberEnv (n : Nat) (d : Declaration) (h : d.WellSpelled) :
    (d.numberEnv n).1.WellSpelled := by
  cases d with
  | config b => exact ⟨h.1, forall_numberAlong ConfigMember.wellSpelled_numberEnv n h.2⟩
  | model m => exact ⟨h.1, forall_numberAlong ModelMember.wellSpelled_numberEnv n h.2⟩
  | enum e => exact ⟨h.1, forall_numberAlong EnumMember.wellSpelled_numberEnv n h.2⟩
  | comments b => exact h

theorem Schema.wellSpelled_numberEnv (n : Nat) {s : Schema} (h : s.WellSpelled) :
    (s.numberEnv n).1.WellSpelled :=
  forall_numberAlong Declaration.wellSpelled_numberEnv n h

/-! ### Neutral texts -/

theorem IsContent.append {w v : List Char} (hw : IsContent w) (hv : IsContent v) :
    IsContent (w ++ v) := by
  obtain ⟨units, hunits, rfl⟩ := hw
  obtain ⟨units', hunits', rfl⟩ := hv
  refine ⟨units ++ units', fun u hu => ?_, List.flatten_append.symm⟩
  rcases List.mem_append.mp hu with hu | hu
  · exact hunits u hu
  · exact hunits' u hu

/-- The texts around a field are texts of strings, and its literal is one of the grammar. -/
structure FieldTexts.Spelled (w : FieldTexts) : Prop where
  literal : ∀ v ∈ w.literal, v.WellSpelled
  foreignKey : IsContent w.foreignKey.toList
  uniqueKey : ∀ old, IsContent (w.uniqueKey old).toList

theorem Comment.wellSpelled_cleared (c : Comment) : c.cleared.WellSpelled :=
  ⟨⟨nofun, nofun⟩, nofun⟩

theorem wellSpelled_map_cleared (c : Option Comment) :
    ∀ c' ∈ c.map (·.cleared), c'.WellSpelled := by
  intro c' hc'
  obtain ⟨c₀, -, rfl⟩ := Option.map_eq_some_iff.mp hc'
  exact c₀.wellSpelled_cleared

section Texts

variable {w : FieldTexts}

theorem Value.wellSpelled_retextItem (hw : w.Spelled) {v : Value} (h : v.WellSpelled) :
    (v.retextItem w).WellSpelled := by
  by_cases hv : v.isLiteral = true
  · rw [retextItem_of_isLiteral hv]
    cases hl : w.literal with
    | none => exact h
    | some l => exact hw.literal l hl
  · cases v with
    | call name args =>
      rw [retextItem_call]
      split
      · exact ⟨⟨["now".toList], by decide, by decide, rfl⟩, trivial⟩
      · exact h
    | array items => exact h
    | path segments => exact h
    | _ => exact absurd rfl hv

theorem Value.wellSpelled_retextDefault (hw : w.Spelled) {v : Value} (h : v.WellSpelled) :
    (v.retextDefault w).WellSpelled := by
  cases hv : v.array? with
  | some items =>
    obtain rfl := eq_array_of_array? hv
    exact wellSpelledEach_map (fun _ => wellSpelled_retextItem hw) h
  | none =>
    rw [retextDefault_of_array?_none hv]
    exact wellSpelled_retextItem hw h

theorem Value.wellSpelled_mapString_text {f : String → String}
    (hf : ∀ text, IsContent (f text).toList) {v : Value} (h : v.WellSpelled) :
    (v.mapString f).WellSpelled := by
  cases v with
  | string text => exact hf text
  | _ => exact h

theorem Attribute.wellSpelled_retextOnField (hw : w.Spelled) {a : Attribute} (h : a.WellSpelled) :
    (a.retextOnField w).WellSpelled := by
  unfold retextOnField
  split
  · exact ⟨h.1, Argument.wellSpelledEach_mapHead
      (fun _ => Value.wellSpelled_retextDefault hw) h.2⟩
  split
  · exact ⟨h.1, Argument.wellSpelledEach_mapFirst
      (fun _ => Value.wellSpelled_mapString_text fun _ => hw.foreignKey) h.2⟩
  split
  · refine ⟨h.1, Argument.wellSpelledEach_map (fun arg harg => ?_) h.2⟩
    split
    · exact ⟨harg.1, Value.wellSpelled_mapString_text hw.uniqueKey harg.2⟩
    · exact harg
  · exact h

theorem Attribute.wellSpelled_retextIndex {text : String} (ht : IsContent text.toList)
    {a : Attribute} (h : a.WellSpelled) : (a.retextIndex text).WellSpelled := by
  unfold retextIndex
  split
  · refine ⟨h.1, ?_⟩
    have hargs := h.2
    rw [mapArgs_args]
    match a.args, hargs with
    | [], hargs => exact hargs
    | [_], hargs => exact hargs
    | ⟨_, _, _⟩ :: ⟨_, _, _⟩ :: _, hargs =>
      simp only [retextSecond]
      split
      · exact ⟨hargs.1, hargs.2.1, hargs.2.2.1,
          Value.wellSpelled_mapString_text (fun _ => ht) hargs.2.2.2.1, hargs.2.2.2.2⟩
      · exact hargs
  · exact h

end Texts

/-- The neutral texts around a field of a model are texts of strings. -/
theorem Texts.spelled_neutral {model field : String} (hm : isName model.toList = true)
    (hf : isName field.toList = true) (type : FieldType) :
    (Texts.neutral.around model field type).Spelled where
  literal v hv := by
    obtain ⟨scalar, -, hp⟩ := Option.bind_eq_some_iff.mp hv
    have hdefault : IsContent "DEFAULT".toList := isContent_of_isName (by decide)
    have hjson : IsContent "[]".toList := ⟨[['['], [']']], by simp [IsContentUnit], rfl⟩
    cases scalar <;> cases hp <;> first | exact hdefault | exact hjson | trivial
  foreignKey := by
    show IsContent (toString field ++ "_mapped").toList
    rw [String.toList_append]
    exact isContent_of_isName (isName_append hf (by decide))
  uniqueKey old := by
    have hmodel := isContent_of_isName hm
    have hfield : IsContent (field.toList ++ "_unique".toList) :=
      isContent_of_isName (isName_append hf (by decide))
    have hpoint : IsContent ".".toList := ⟨[['.']], by simp [IsContentUnit], rfl⟩
    have hline : IsContent "_".toList := isContent_of_isName (by decide)
    show IsContent (Attribute.uniqueKeyName model field old).toList
    unfold Attribute.uniqueKeyName
    split
    · have h := hmodel.append (hpoint.append hfield)
      simpa [toString] using h
    · have h := hmodel.append (hline.append hfield)
      simpa [toString] using h

theorem ModelMember.wellSpelled_retext {model : String} (hm : isName model.toList = true)
    (number : Nat) (member : ModelMember) (h : member.WellSpelled) :
    (member.retext .neutral model number).1.WellSpelled := by
  cases member with
  | field f =>
    refine ⟨h.name, h.type, fun a ha => ?_, wellSpelled_map_cleared f.comment⟩
    obtain ⟨b, hb, rfl⟩ := List.mem_map.mp ha
    exact Attribute.wellSpelled_retextOnField (Texts.spelled_neutral hm h.name f.type)
      (h.attributes b hb)
  | blockAttribute a =>
    refine ⟨Attribute.wellSpelled_retextIndex ?_ h.attr, wellSpelled_map_cleared a.comment⟩
    have hstem : isName (model.toList ++ "_index_".toList) = true := isName_append hm (by decide)
    have hname := isContent_of_isName (isName_append hstem (all_isNameChar_toString number))
    simpa [Texts.neutral, toString] using hname
  | comment c => exact c.wellSpelled_cleared

/-- A schema stays well spelled when its texts become neutral. -/
theorem Schema.wellSpelled_retext {s : Schema} (h : s.WellSpelled) :
    (s.retext .neutral).WellSpelled := by
  intro d' hd'
  obtain ⟨d, hd, rfl⟩ := List.mem_map.mp hd'
  have hspelled := h d hd
  cases d with
  | model m =>
    exact ⟨hspelled.1, forall_numberAlong (ModelMember.wellSpelled_retext hspelled.1) 0 hspelled.2⟩
  | enum e =>
    refine ⟨hspelled.1, fun member hmember => ?_⟩
    obtain ⟨member₀, hmember₀, rfl⟩ := List.mem_map.mp hmember
    have hmember := hspelled.2 member₀ hmember₀
    cases member₀ with
    | value v => exact ⟨hmember.name, hmember.attributes, wellSpelled_map_cleared v.comment⟩
    | blockAttribute a => exact ⟨hmember.attr, wellSpelled_map_cleared a.comment⟩
    | comment c => exact c.wellSpelled_cleared
  | config b =>
    refine ⟨hspelled.1, fun member hmember => ?_⟩
    obtain ⟨member₀, hmember₀, rfl⟩ := List.mem_map.mp hmember
    have hmember := hspelled.2 member₀ hmember₀
    cases member₀ with
    | property p => exact ⟨hmember.name, hmember.value, wellSpelled_map_cleared p.comment⟩
    | comment c => exact c.wellSpelled_cleared
  | comments b => exact fun c hc => by cases hc

/-- **An obfuscation is well spelled** where the schema is. -/
theorem Schema.wellSpelled_result {n : Numbering} {s : Schema} (hs : s.Accepted)
    (h : s.WellSpelled) : (s.result n).WellSpelled := by
  have hnumbered := Schema.wellSpelled_numberEnv 0 h
  have haccepted := (Schema.accepted_numberEnv 0 s).mpr hs
  rw [Schema.result, ← Schema.outline_numberEnv 0 s, Schema.rename_newNames haccepted]
  exact Schema.wellSpelled_retext (Schema.wellSpelled_rename (Outline.given_words _) hnumbered)

end Pseudonym

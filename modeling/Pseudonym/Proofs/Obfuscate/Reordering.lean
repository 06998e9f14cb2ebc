/-
# Declarations in another order

The order of the declarations decides which numbers the models, the enums and
the environment variables get, and nothing else. Whether a schema is accepted
does not depend on it, since references may point ahead or back. Between the
outcomes for two orders there is one renumbering, for all declarations the
same, that gives each model and each enum the number that it has in the other
outcome and takes the environment variables of each declaration along with it.

This is so for values that are numbered within each enum. Numbers that run
through all enums depend on what comes before.

Key definitions: `movedTo`, `slots`, `Schema.reordered`, `Renumbering.Pairs`,
`Schema.renumbering`.
-/
import Mathlib.Data.List.FinRange
import Mathlib.Data.Set.Function
import Mathlib.Order.Interval.Set.Defs
import Pseudonym.Proofs.Obfuscate.Appending
import Pseudonym.Proofs.Obfuscate.Renumbered

namespace Pseudonym

/-! ### Places in another order -/

section Places

variable {α : Type} [DecidableEq α] {l l' : List α} {i j : Nat} {a : α}

/-- Where the item at a place of one list stands in another list. -/
def movedTo (l l' : List α) (i : Nat) : Nat := (l[i]?.map l'.idxOf).getD i

theorem movedTo_of_getElem? (h : l[i]? = some a) : movedTo l l' i = l'.idxOf a := by
  rw [movedTo, h, Option.map_some, Option.getD_some]

theorem movedTo_idxOf (h : a ∈ l) : movedTo l l' (l.idxOf a) = l'.idxOf a :=
  movedTo_of_getElem? (List.getElem?_idxOf h)

/-- In another order every place is taken by one item. -/
theorem bijOn_movedTo (hl : l.Nodup) (h : l.Perm l') :
    Set.BijOn (movedTo l l') (Set.Iio l.length) (Set.Iio l'.length) := by
  have hmoved : ∀ i (hi : i < l.length), movedTo l l' i = l'.idxOf l[i] := fun i hi =>
    movedTo_of_getElem? (List.getElem?_eq_getElem hi)
  have hmem : ∀ i (hi : i < l.length), l[i] ∈ l' := fun i hi =>
    h.mem_iff.mp (List.getElem_mem hi)
  refine ⟨fun i hi => ?_, fun i hi j hj hij => ?_, fun j hj => ?_⟩
  · rw [Set.mem_Iio, hmoved i hi]
    exact List.idxOf_lt_length_of_mem (hmem i hi)
  · rw [hmoved i hi, hmoved j hj, List.idxOf_inj (hmem i hi)] at hij
    exact (hl.getElem_inj_iff).mp hij
  · rw [Set.mem_Iio] at hj
    have hback : l'[j] ∈ l := h.mem_iff.mpr (List.getElem_mem hj)
    refine ⟨l.idxOf l'[j], List.idxOf_lt_length_of_mem hback, ?_⟩
    rw [movedTo_idxOf hback]
    exact (h.nodup_iff.mp hl).idxOf_getElem j hj

end Places

section Slots

variable {α : Type} {l : List α} {a : α} {count : α → Nat}

/-- As many slots for each item of a list as it needs, one after the other. -/
def slots (count : α → Nat) (l : List α) : List (α × Nat) :=
  l.flatMap fun a => (List.range (count a)).map (a, ·)

theorem length_slots (l : List α) : (slots count l).length = (l.map count).sum := by
  simp [slots, List.length_flatMap]

theorem nodup_slots (hl : l.Nodup) : (slots count l).Nodup := by
  rw [slots, List.nodup_flatMap]
  refine ⟨fun a _ => List.nodup_range.map fun k k' h => (Prod.mk.inj h).2, hl.imp ?_⟩
  rintro a b hab ⟨c, k⟩ ha hb
  obtain ⟨_, -, ha⟩ := List.mem_map.mp ha
  obtain ⟨_, -, hb⟩ := List.mem_map.mp hb
  exact hab ((Prod.mk.inj ha).1.trans (Prod.mk.inj hb).1.symm)

/-- The slots of an item come after those of all items before it. -/
theorem getElem?_slots {k : Nat} (hk : k < count a) : ∀ (l : List α) (i : Nat), l[i]? = some a →
    (slots count l)[((l.take i).map count).sum + k]? = some (a, k)
  | [], _, h => by cases h
  | b :: l, 0, h => by
    cases h
    have hrange : k < ((List.range (count a)).map fun k => (a, k)).length := by simpa using hk
    rw [slots, List.flatMap_cons, List.take_zero, List.map_nil, List.sum_nil, Nat.zero_add,
      List.getElem?_append_left hrange]
    simp [hk]
  | b :: l, i + 1, h => by
    have ih := getElem?_slots hk l i h
    rw [slots, List.flatMap_cons, List.take_succ_cons, List.map_cons, List.sum_cons,
      List.getElem?_append_right (by simp; omega)]
    simpa [slots, Nat.add_assoc] using ih

end Slots

/-! ### What does not depend on the order -/

namespace Schema

variable {s s' : Schema}

section Perm

variable (h : s.declarations.Perm s'.declarations)

include h

theorem perm_typeNames : s.typeNames.Perm s'.typeNames := h.filterMap _

theorem perm_models : s.models.Perm s'.models := h.filterMap _

theorem perm_enums : s.enums.Perm s'.enums := h.filterMap _

theorem scopesAt_of_perm (hs : s.typeNames.Nodup) (m : Model) (type : FieldType) :
    s.scopesAt m type = s'.scopesAt m type := by
  rw [s.typeNames_perm.nodup_iff, List.nodup_append] at hs
  have hmodel : s.model? = s'.model? := funext (find?_of_perm (perm_models h) hs.1)
  have henum : s.enum? = s'.enum? := funext (find?_of_perm (perm_enums h) hs.2.1)
  rw [scopesAt, scopesAt, modelOf, modelOf, enumOf, enumOf, hmodel, henum]

/-- A schema is accepted in any order of its declarations. -/
theorem accepted_of_perm (hs : s.Accepted) : s'.Accepted := by
  have hm : ∀ {m}, m ∈ s'.models → m ∈ s.models := fun hm => (perm_models h).mem_iff.mpr hm
  have hscopes := scopesAt_of_perm h hs.types
  exact
    { types := (perm_typeNames h).nodup_iff.mp hs.types
      values := fun e he => hs.values e ((perm_enums h).mem_iff.mpr he)
      fields := fun m hm' => hs.fields m (hm hm')
      relations := fun m hm' => hs.relations m (hm hm')
      uniqueOnField := fun m hm' => hs.uniqueOnField m (hm hm')
      uniqueOnModel := fun m hm' => hs.uniqueOnModel m (hm hm')
      fieldTypes := fun m hm' f hf name hname =>
        (perm_typeNames h).mem_iff.mp (hs.fieldTypes m (hm hm') f hf name hname)
      defaults := fun m hm' f hf a ha hd => hscopes m f.type ▸ hs.defaults m (hm hm') f hf a ha hd
      relationArgs := fun m hm' f hf a ha hr =>
        hscopes m f.type ▸ hs.relationArgs m (hm hm') f hf a ha hr
      indexes := fun m hm' => hs.indexes m (hm hm')
      ids := fun m hm' => hs.ids m (hm hm')
      uniqueLists := fun m hm' => hs.uniqueLists m (hm hm') }

theorem perm_modelNames :
    (s.outline .perEnum).modelNames.Perm (s'.outline .perEnum).modelNames := by
  rw [modelNames_outline, modelNames_outline]
  exact (perm_models h).map _

theorem perm_enumNames : (s.outline .perEnum).enumNames.Perm (s'.outline .perEnum).enumNames := by
  rw [enumNames_outline, enumNames_outline]
  exact (perm_enums h).map _

end Perm

/-- Within each enum the values are numbered from 0 on. -/
theorem base_outline_perEnum : ∀ (ds : List Declaration) (o : Outline),
    (∀ e ∈ o.enums, e.base = 0) →
      ∀ e ∈ (ds.foldl (Outline.addDeclaration .perEnum) o).enums, e.base = 0
  | [], _, ho => ho
  | d :: ds, o, ho => by
    refine base_outline_perEnum ds _ ?_
    cases d with
    | enum e =>
      intro e' he'
      rcases List.mem_append.mp he' with he' | he'
      · exact ho e' he'
      · rw [List.mem_singleton.mp he']
        rfl
    | _ => exact ho

theorem newNames_value_perEnum (hs : s.typeNames.Nodup) {e : Enum} (he : e ∈ s.enums) {x : String}
    (hx : x ∈ e.valueNames) :
    (s.outline .perEnum).newNames.value e.name.name x = valueName (e.valueNames.idxOf x) := by
  obtain ⟨o, ho, hvalues, hvalue⟩ := newNames_value (n := .perEnum) hs he hx
  have hbase : o.base = 0 := base_outline_perEnum s.declarations .empty (fun _ h => nomatch h) o
    (List.mem_of_getElem? ho)
  rw [hvalue, EnumOutline.newValue, hbase, hvalues, Nat.zero_add]

/-! ### The renumbering between two orders -/

/-- The declarations of a schema in another order. -/
def reordered (s : Schema) (σ : Equiv.Perm (Fin s.declarations.length)) : Schema :=
  ⟨List.ofFn fun i => s.declarations.get (σ i)⟩

/-- How many environment variables a declaration reads. -/
def envCount (s : Schema) (i : Fin s.declarations.length) : Nat :=
  ((s.declarations.get i).numberEnv 0).2

/-- The environment variables of the declarations in some order, each as the declaration that
reads it and its number there. -/
def envSlots (s : Schema) (order : List (Fin s.declarations.length)) :
    List (Fin s.declarations.length × Nat) :=
  slots s.envCount order

/-- The renumbering between a schema and its declarations in another order. -/
def renumbering (s : Schema) (σ : Equiv.Perm (Fin s.declarations.length)) : Renumbering where
  model := movedTo (s.outline .perEnum).modelNames ((s.reordered σ).outline .perEnum).modelNames
  enum := movedTo (s.outline .perEnum).enumNames ((s.reordered σ).outline .perEnum).enumNames
  envVar := movedTo (s.envSlots (List.finRange _)) (s.envSlots (List.ofFn σ))

end Schema

/-- The renumbering takes the numbers of the one registry to those of the other, and pairs the new
names of the same models and enums. -/
structure Renumbering.Pairs (x : Renumbering) (r r' : Registry) : Prop where
  models : Set.BijOn x.model (Set.Iio r.models.size) (Set.Iio r'.models.size)
  enums : Set.BijOn x.enum (Set.Iio r.enums.size) (Set.Iio r'.enums.size)
  envVars : Set.BijOn x.envVar (Set.Iio r.envVars) (Set.Iio r'.envVars)
  model : ∀ name i, r.models.get? name = some (modelName i) →
    r'.models.get? name = some (modelName (x.model i))
  enum : ∀ name i, r.enums.get? name = some (enumName i) →
    r'.enums.get? name = some (enumName (x.enum i))

theorem get?_numbered_movedTo {stem : Nat → String} (hstem : ∀ i j, stem i = stem j → i = j)
    {l l' : List String} (h : l.Perm l') {name : String} {i : Nat}
    (hname : (Table.numbered stem l).get? name = some (stem i)) :
    (Table.numbered stem l').get? name = some (stem (movedTo l l' i)) := by
  rw [Table.get?_numbered, Option.ite_none_right_eq_some, Option.some.injEq] at hname
  obtain ⟨hmem, hi⟩ := hname
  rw [Table.get?_numbered, if_pos (h.mem_iff.mp hmem), ← hstem _ _ hi, movedTo_idxOf hmem]

namespace Schema

variable {s : Schema} {σ : Equiv.Perm (Fin s.declarations.length)}

theorem declarations_finRange (s : Schema) :
    (List.finRange _).map s.declarations.get = s.declarations := List.map_get_finRange _

theorem declarations_reordered (s : Schema) (σ : Equiv.Perm (Fin s.declarations.length)) :
    (s.reordered σ).declarations = (List.ofFn σ).map s.declarations.get := by
  rw [List.map_ofFn]
  rfl

theorem perm_order (σ : Equiv.Perm (Fin s.declarations.length)) :
    (List.finRange s.declarations.length).Perm (List.ofFn σ) := by
  rw [← List.ofFn_id]
  exact (σ.ofFn_comp_perm id).symm

theorem perm_reordered (s : Schema) (σ : Equiv.Perm (Fin s.declarations.length)) :
    s.declarations.Perm (s.reordered σ).declarations := by
  have hperm := (perm_order σ).map s.declarations.get
  rwa [declarations_finRange, ← declarations_reordered] at hperm

/-- The first number of a declaration is the number of slots of those before it. -/
theorem numberAlong_take (order : List (Fin s.declarations.length)) (i : Nat) :
    (numberAlong Declaration.numberEnv 0 ((order.map s.declarations.get).take i)).2 =
      ((order.take i).map s.envCount).sum := by
  rw [(Declaration.shifts_numberEnv (f := id)).next_numberAlong, Nat.zero_add, ← List.map_take,
    List.map_map]
  rfl

/-- The environment variables of a declaration are taken along with it. -/
theorem carries_renumbering (i : Fin s.declarations.length) :
    Carries (s.renumbering σ).envName
      (numberAlong Declaration.numberEnv 0 (s.declarations.take (σ i))).2
      (numberAlong Declaration.numberEnv 0 ((s.reordered σ).declarations.take i)).2
      ((s.declarations.get (σ i)).numberEnv 0).2 := by
  intro k hk
  have hslot : k < s.envCount (σ i) := hk
  have hfrom : (List.finRange s.declarations.length)[(σ i : Nat)]? = some (σ i) := by simp
  have hto : (List.ofFn σ)[(i : Nat)]? = some (σ i) := by simp
  have hnodup : (List.ofFn σ).Nodup := List.nodup_ofFn.mpr σ.injective
  have hbefore := numberAlong_take (List.finRange s.declarations.length) (σ i)
  rw [declarations_finRange] at hbefore
  rw [hbefore, declarations_reordered, numberAlong_take, Renumbering.envName_envName]
  refine congrArg Registry.envName ?_
  refine (movedTo_of_getElem? (getElem?_slots hslot _ _ hfrom)).trans ?_
  exact idxOf_of_getElem? (nodup_slots hnodup) (getElem?_slots hslot _ _ hto)

theorem model_renumbering {name : String} (h : name ∈ (s.outline .perEnum).modelNames) :
    (s.renumbering σ).model ((s.outline .perEnum).modelNames.idxOf name) =
      ((s.reordered σ).outline .perEnum).modelNames.idxOf name := movedTo_idxOf h

theorem enum_renumbering {name : String} (h : name ∈ (s.outline .perEnum).enumNames) :
    (s.renumbering σ).enum ((s.outline .perEnum).enumNames.idxOf name) =
      ((s.reordered σ).outline .perEnum).enumNames.idxOf name := movedTo_idxOf h

/-- The renumbering leads from the new names in the one order to those in the other. -/
theorem leads_renumbering (h : s.typeNames.Nodup) : s.Leads (s.outline .perEnum).newNames
    (s.renumbering σ).toRenaming ((s.reordered σ).outline .perEnum).newNames := by
  have hperm := s.perm_reordered σ
  have h' := (perm_typeNames hperm).nodup_iff.mp h
  have hmodels : ∀ {m}, m ∈ s.models → m ∈ (s.reordered σ).models := (perm_models hperm).mem_iff.mp
  have henums : ∀ {e}, e ∈ s.enums → e ∈ (s.reordered σ).enums := (perm_enums hperm).mem_iff.mp
  refine ⟨fun x _ hx hbuiltin => hx ?_, fun x hx => ?_, fun m hm x hx => ?_, fun m hm x hx => ?_,
    fun e he x hx => ?_⟩
  · exact (s.outline .perEnum).newNames_faithful.builtin x hbuiltin
  · by_cases hmodel : x ∈ (s.outline .perEnum).modelNames
    · rw [Outline.newNames_type_of_model hmodel, Outline.newNames_type_of_model
        ((perm_modelNames hperm).mem_iff.mp hmodel), Renumbering.toRenaming_type,
        Renumbering.name_modelName, model_renumbering hmodel]
    · have henum := (mem_typeNames.mp hx).resolve_left hmodel
      rw [Outline.newNames_type_of_enum hmodel henum, Outline.newNames_type_of_enum
        (fun hm => hmodel ((perm_modelNames hperm).mem_iff.mpr hm))
        ((perm_enumNames hperm).mem_iff.mp henum), Renumbering.toRenaming_type,
        Renumbering.name_enumName, enum_renumbering henum]
  · rw [newNames_field h hm hx, newNames_field h' (hmodels hm) hx, Renumbering.toRenaming_field, id]
  · rw [newNames_relation h hm hx, newNames_relation h' (hmodels hm) hx,
      Renumbering.toRenaming_relation, ModelOutline.newRelation, ModelOutline.newRelation,
      Renumbering.name_relationName, model_renumbering (mem_modelNames hm)]
  · rw [newNames_value_perEnum h he hx, newNames_value_perEnum h' (henums he) hx,
      Renumbering.toRenaming_value, id]

theorem envVars_eq (order : List (Fin s.declarations.length)) :
    ((⟨order.map s.declarations.get⟩ : Schema).numberEnv 0).2 = (s.envSlots order).length := by
  have htake := numberAlong_take order order.length
  rw [List.take_of_length_le (by simp), List.take_length] at htake
  rw [envSlots, length_slots, ← htake]
  rfl

/-- The registries of the two orders have their numbers paired. -/
theorem pairs_renumbering (h : s.typeNames.Nodup) : (s.renumbering σ).Pairs
    (Outline.registry .perEnum { s.outline .perEnum with envVars := (s.numberEnv 0).2 })
    (Outline.registry .perEnum { (s.reordered σ).outline .perEnum with
      envVars := ((s.reordered σ).numberEnv 0).2 }) := by
  have hperm := s.perm_reordered σ
  rw [s.typeNames_perm.nodup_iff, List.nodup_append, ← modelNames_outline (n := .perEnum),
    ← enumNames_outline (n := .perEnum)] at h
  have hmodels := bijOn_movedTo h.1 (perm_modelNames hperm)
  have henums := bijOn_movedTo h.2.1 (perm_enumNames hperm)
  have henv := bijOn_movedTo (nodup_slots (List.nodup_finRange s.declarations.length))
    ((perm_order σ).flatMap_right fun i => (List.range (s.envCount i)).map (i, ·))
  have hfrom := envVars_eq (List.finRange s.declarations.length)
  have hto := envVars_eq (List.ofFn σ)
  rw [declarations_finRange] at hfrom
  rw [← declarations_reordered] at hto
  refine ⟨?_, ?_, ?_, fun name i => ?_, fun name i => ?_⟩
  · rwa [← Table.size_numbered modelName, ← Table.size_numbered modelName] at hmodels
  · rwa [← Table.size_numbered enumName, ← Table.size_numbered enumName] at henums
  · show Set.BijOn _ (Set.Iio (s.numberEnv 0).2) (Set.Iio ((s.reordered σ).numberEnv 0).2)
    rw [hfrom, hto]
    exact henv
  · exact get?_numbered_movedTo (fun _ _ => modelName_inj) (perm_modelNames hperm)
  · exact get?_numbered_movedTo (fun _ _ => enumName_inj) (perm_enumNames hperm)

/-! ### The results in two orders -/

theorem getElem?_result (n : Numbering) (s : Schema) (i : Nat) : (s.result n).declarations[i]? =
    s.declarations[i]?.map fun d =>
      ((d.numberEnv (numberAlong Declaration.numberEnv 0 (s.declarations.take i)).2).1.rename
        (s.outline n).newNames).retext .neutral := by
  simp only [result, numberEnv, rename, retext, Prod.map, List.getElem?_map, getElem?_numberAlong,
    Option.map_map, Function.comp_def]

theorem rename_rename_declaration {ρ ρ' ρ'' : Renaming} (hs : s.Accepted) (h : s.Leads ρ ρ' ρ'')
    {d : Declaration} (hd : d ∈ s.declarations) : (d.rename ρ).rename ρ' = d.rename ρ'' := by
  have hschema := congrArg declarations (rename_rename hs h)
  simp only [rename, List.map_map] at hschema
  exact List.map_inj_left.mp hschema d hd

/-- A declaration becomes the same in both orders, except for the numbers. -/
theorem renumber_result (hs : s.Accepted) (i : Fin s.declarations.length) :
    ((s.reordered σ).result .perEnum).declarations[(i : Nat)]? =
      ((s.result .perEnum).declarations[(σ i : Nat)]?).map (·.renumber (s.renumbering σ)) := by
  have hfrom : s.declarations[(σ i : Nat)]? = some (s.declarations.get (σ i)) := by simp
  have hto : (s.reordered σ).declarations[(i : Nat)]? = some (s.declarations.get (σ i)) := by
    simp [reordered]
  have hmem : s.declarations.get (σ i) ∈ s.declarations := List.get_mem _ _
  rw [getElem?_result, getElem?_result, hfrom, hto, Option.map_some, Option.map_some,
    Option.map_some]
  refine congrArg some (Declaration.renumber_numberEnv (fun m hm => ?_) ?_
    (carries_renumbering i)).symm
  · exact ⟨_, newNames_type_model (List.mem_filterMap.mpr ⟨_, hmem, by rw [hm]; rfl⟩)⟩
  · exact rename_rename_declaration hs (leads_renumbering hs.types) hmem

/-- **The order of the declarations does not matter**, for values that are numbered within each
enum. A schema can be obfuscated in every order or in none. There is a renumbering that pairs the
registries of two orders, and each declaration becomes the same in both except for the numbers
that it replaces. -/
theorem obfuscate_reordered (s : Schema) (σ : Equiv.Perm (Fin s.declarations.length)) :
    ((∃ p, s.obfuscate .perEnum = .ok p) ↔ ∃ p, (s.reordered σ).obfuscate .perEnum = .ok p) ∧
    ∀ t r t' r', s.obfuscate .perEnum = .ok (t, r) →
      (s.reordered σ).obfuscate .perEnum = .ok (t', r') →
        t.declarations.length = s.declarations.length ∧
        t'.declarations.length = s.declarations.length ∧
        ∃ x : Renumbering, x.Pairs r r' ∧ ∀ i : Fin s.declarations.length,
          t'.declarations[(i : Nat)]? = t.declarations[(σ i : Nat)]?.map (·.renumber x) := by
  have hperm := s.perm_reordered σ
  constructor
  · rw [(s.meets_obfuscate .perEnum).iff, ((s.reordered σ).meets_obfuscate .perEnum).iff]
    exact ⟨accepted_of_perm hperm, accepted_of_perm hperm.symm⟩
  · intro t r t' r' ht ht'
    have hs := ((s.meets_obfuscate .perEnum).of_ok ht).1
    obtain ⟨rfl, rfl⟩ := eq_result_of_ok ht
    obtain ⟨rfl, rfl⟩ := eq_result_of_ok ht'
    exact ⟨length_result _ _, (length_result _ _).trans hperm.length_eq.symm, s.renumbering σ,
      pairs_renumbering hs.types, renumber_result hs⟩

/-- The declarations backwards: the enum comes first, and the two models change places. -/
theorem obfuscate_reordered_crossed : ∃ t r t' r', ∃ x : Renumbering,
    crossed.obfuscate .perEnum = .ok (t, r) ∧
      (crossed.reordered Fin.revPerm).obfuscate .perEnum = .ok (t', r') ∧ x.Pairs r r' ∧
      ∀ i : Fin 3, t'.declarations[(i : Nat)]? =
        t.declarations[(i.rev : Nat)]?.map (·.renumber x) := by
  have hs : (crossed.obfuscate .perEnum).toBool = true := by decide +kernel
  obtain ⟨⟨t, r⟩, ht⟩ := exists_of_toBool hs
  obtain ⟨hiff, hblocks⟩ := obfuscate_reordered crossed Fin.revPerm
  obtain ⟨⟨t', r'⟩, ht'⟩ := hiff.mp ⟨_, ht⟩
  obtain ⟨-, -, x, hpairs, hx⟩ := hblocks t r t' r' ht ht'
  exact ⟨t, r, t', r', x, ht, ht', hpairs, hx⟩

end Schema

end Pseudonym

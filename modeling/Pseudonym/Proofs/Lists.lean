/-
# Lists

What the proofs say of lists in general: where the items of a list stand, two
lists side by side, what is kept of a list, walks along a list, and lists that
are joined with something between them.
-/
import Mathlib.Algebra.GroupWithZero.Nat
import Mathlib.Data.List.Forall2
import Mathlib.Data.List.Nodup

namespace Pseudonym

variable {α β γ δ σ : Type}

/-! ### Places -/

section Places

variable {l l' : List α} {a : α} {i : Nat}

theorem idxOf_of_getElem? [DecidableEq α] (hl : l.Nodup) (h : l[i]? = some a) :
    l.idxOf a = i := by
  obtain ⟨hi, rfl⟩ := List.getElem?_eq_some_iff.mp h
  exact hl.idxOf_getElem i hi

theorem idxOf_map_injective [BEq α] [LawfulBEq α] {f : α → α} (hf : Function.Injective f) (x : α)
    (l : List α) : (l.map f).idxOf (f x) = l.idxOf x := by
  have hbeq : (· == f x) ∘ f = (· == x) := funext fun y => hf.beq_eq
  rw [List.idxOf, List.findIdx_map, hbeq, List.idxOf]

/-- A name has the place that it had before all names of a list were changed, if no other name
of the list is changed to the same. -/
theorem idxOf?_map {l : List String} {f : String → String} {x : String}
    (h : ∀ y ∈ l, f y = f x → y = x) : (l.map f).idxOf? (f x) = l.idxOf? x := by
  induction l with
  | nil => rfl
  | cons y l ih =>
    have hy : (f y == f x) = (y == x) := by
      rw [Bool.eq_iff_iff, beq_iff_eq, beq_iff_eq]
      exact ⟨h y List.mem_cons_self, congrArg f⟩
    rw [List.map_cons, List.idxOf?_cons, List.idxOf?_cons, hy,
      ih fun z hz => h z (List.mem_cons_of_mem y hz)]

/-- Among different names, numbers by place run from zero on. -/
theorem map_idxOf {l : List String} (hl : l.Nodup) (f : Nat → β) :
    l.map (fun x => f (l.idxOf x)) = (List.range l.length).map f := by
  refine List.ext_getElem (by simp) fun i hi _ => ?_
  rw [List.length_map] at hi
  simp [hl.idxOf_getElem i hi]

/-- The owner of a name stands at the place of the name. -/
theorem getElem?_idxOf {f : α → String} {name : String} (h : name ∈ l.map f) :
    ∃ a, l[(l.map f).idxOf name]? = some a ∧ f a = name := by
  have hlt : (l.map f).idxOf name < l.length := by
    rw [← List.length_map]
    exact List.idxOf_lt_length_of_mem h
  refine ⟨l[(l.map f).idxOf name], List.getElem?_eq_getElem hlt, ?_⟩
  have hget := List.getElem_idxOf (List.idxOf_lt_length_of_mem h)
  rwa [List.getElem_map] at hget

theorem getElem?_extended (h : l <+: l') (hi : l[i]? = some a) : l'[i]? = some a := by
  obtain ⟨more, rfl⟩ := h
  obtain ⟨hlength, -⟩ := List.getElem?_eq_some_iff.mp hi
  rw [List.getElem?_append_left hlength, hi]

theorem idxOf_added {l l' : List String} {x : String} (h : l ++ [x] <+: l') (hx : x ∉ l) :
    l'.idxOf x = l.length := by
  rw [← h.idxOf_eq_of_mem (by simp), List.idxOf_append, if_neg hx]
  simp

/-- The place of an item whose name is new when it is added. -/
theorem idxOf_map_added {name : α → String} (h : l ++ [a] <+: l') (ha : name a ∉ l.map name) :
    (l'.map name).idxOf (name a) = l.length ∧ l'[l.length]? = some a := by
  obtain ⟨more, rfl⟩ := h
  constructor
  · rw [idxOf_added (l := l.map name) ⟨more.map name, by simp⟩ ha, List.length_map]
  · simp

theorem mapIdx_map (f : α → β) (g : Nat → β → γ) (l : List α) :
    (l.map f).mapIdx g = l.mapIdx fun i a => g i (f a) := by
  refine List.ext_getElem (by simp) fun i _ _ => ?_
  simp

theorem prefix_mapIdx (h : l <+: l') (f : Nat → α → β) : l.mapIdx f <+: l'.mapIdx f := by
  obtain ⟨more, rfl⟩ := h
  rw [List.mapIdx_append]
  exact List.prefix_append _ _

end Places

/-! ### Finding -/

section Finding

variable {l l' : List α} {f : α → String} {name : String}

/-- The first item of a name stands at the place of the name. -/
theorem find?_eq_getElem?_idxOf (f : α → String) (name : String) : ∀ l : List α,
    l.find? (f · == name) = l[(l.map f).idxOf name]?
  | [] => rfl
  | a :: l => by
    rw [List.find?_cons, List.map_cons, List.idxOf_cons]
    cases h : f a == name with
    | true => simp
    | false => simpa using find?_eq_getElem?_idxOf f name l

theorem find?_of_mem (h : name ∈ l.map f) :
    ∃ a, l.find? (f · == name) = some a ∧ f a = name := by
  rw [find?_eq_getElem?_idxOf]
  exact getElem?_idxOf h

theorem find?_of_not_mem (h : name ∉ l.map f) : l.find? (f · == name) = none := by
  rw [List.find?_eq_none]
  exact fun a ha hname => h (List.mem_map.mpr ⟨a, ha, beq_iff_eq.mp hname⟩)

/-- Among different names, the one of an item finds this item. -/
theorem find?_of_nodup (f : α → String) (h : (l.map f).Nodup) {a : α} (ha : a ∈ l) :
    l.find? (f · == f a) = some a := by
  induction l with
  | nil => cases ha
  | cons b l ih =>
    obtain ⟨hb, hl⟩ := List.nodup_cons.mp h
    rcases List.mem_cons.mp ha with rfl | ha
    · rw [List.find?_cons_of_pos (by simp)]
    · have hne : f b ≠ f a := fun heq => hb (heq ▸ List.mem_map_of_mem ha)
      rw [List.find?_cons_of_neg (by simpa using hne), ih hl ha]

/-- Where no two items share a name, the item of a name is found in any order. -/
theorem find?_of_perm (h : l.Perm l') (hl : (l.map f).Nodup) (x : String) :
    l.find? (f · == x) = l'.find? (f · == x) := by
  by_cases hx : x ∈ l.map f
  · obtain ⟨a, ha, rfl⟩ := List.mem_map.mp hx
    rw [find?_of_nodup f hl ha,
      find?_of_nodup f ((h.map f).nodup_iff.mp hl) (h.mem_iff.mp ha)]
  · rw [find?_of_not_mem hx, find?_of_not_mem fun hx' => hx ((h.map f).mem_iff.mpr hx')]

/-- Replacing the entries of a name in a list. -/
theorem lookup_replaced (name : String) (a : α) (x : String) : ∀ l : List (String × α),
    (l.map fun e => if e.1 = name then (e.1, a) else e).lookup x =
      if x = name then (l.lookup x).map (fun _ => a) else l.lookup x
  | [] => by simp
  | (y, b) :: rest => by
    have ih := lookup_replaced name a x rest
    by_cases hxy : x = y
    · subst hxy
      by_cases hx : x = name <;> simp [hx]
    · have hrest : ((y, b) :: rest).lookup x = rest.lookup x := by
        rw [List.lookup_cons, beq_false_of_ne hxy]
      rw [hrest, ← ih, List.map_cons]
      by_cases hy : y = name
      · rw [if_pos hy, List.lookup_cons, beq_false_of_ne hxy]
      · rw [if_neg hy, List.lookup_cons, beq_false_of_ne hxy]

theorem lookup_filter (keep : α → Bool) (name : String) :
    ∀ l : List (String × α), (l.map (·.1)).Nodup →
      (l.filter fun p => keep p.2).lookup name = (l.lookup name).filter keep
  | [], _ => rfl
  | (x, a) :: l, h => by
    have ih := lookup_filter keep name l (List.nodup_cons.mp h).2
    have hx : name = x → l.lookup name = none := by
      rintro rfl
      rw [List.lookup_eq_none_iff]
      intro p hp
      have : p.1 ≠ name := fun hpn =>
        (List.nodup_cons.mp h).1 (List.mem_map.mpr ⟨p, hp, hpn⟩)
      simpa using this.symm
    by_cases hn : name = x
    · by_cases ha : keep a = true
      · simp [Option.filter, ha, hn]
      · rw [List.filter_cons, if_neg (by simpa using ha), ih, hx hn, hn]
        simp [Option.filter, ha]
    · by_cases ha : keep a = true <;>
        simp [ha, List.lookup_cons, beq_false_of_ne hn, ih]

end Finding

/-! ### Two lists side by side -/

section Pairs

variable {R : α → β → Prop} {l : List α} {l' : List β}

theorem forall₂_map (f : α → β) (l : List α) : List.Forall₂ (fun a b => b = f a) l (l.map f) := by
  rw [List.forall₂_map_right_iff, List.forall₂_same]
  exact fun _ _ => rfl

theorem forall₂_mem (h : List.Forall₂ R l l') : List.Forall₂ (fun a b => a ∈ l ∧ R a b) l l' :=
  (List.forall₂_and_left _ _).mpr ⟨fun _ ha => ha, h⟩

theorem forall₂_both {S : α → β → Prop} (h : List.Forall₂ R l l') (h' : List.Forall₂ S l l') :
    List.Forall₂ (fun a b => R a b ∧ S a b) l l' := by
  induction h with
  | nil => exact .nil
  | cons hab _ ih =>
    cases h' with
    | cons hab' hrest => exact .cons ⟨hab, hab'⟩ (ih hrest)

theorem forall₂_trans {S : β → γ → Prop} {l'' : List γ} (h : List.Forall₂ R l l')
    (h' : List.Forall₂ S l' l'') : List.Forall₂ (fun a c => ∃ b, R a b ∧ S b c) l l'' := by
  induction h generalizing l'' with
  | nil =>
    cases h'
    exact .nil
  | cons hab _ ih =>
    cases h' with
    | cons hbc hrest => exact .cons ⟨_, hab, hbc⟩ (ih hrest)

theorem forall₂_getElem? (h : List.Forall₂ R l l') {i : Nat} {a : α} {b : β} (ha : l[i]? = some a)
    (hb : l'[i]? = some b) : R a b := by
  obtain ⟨hi, rfl⟩ := List.getElem?_eq_some_iff.mp ha
  obtain ⟨hi', rfl⟩ := List.getElem?_eq_some_iff.mp hb
  exact h.get hi hi'

theorem exists_left_of_forall₂ (h : List.Forall₂ R l l') {b : β} (hb : b ∈ l') :
    ∃ a ∈ l, R a b := by
  induction h with
  | nil => cases hb
  | cons hab _ ih =>
    obtain rfl | hb := List.mem_cons.mp hb
    · exact ⟨_, List.mem_cons_self, hab⟩
    · obtain ⟨a, ha, hr⟩ := ih hb
      exact ⟨a, List.mem_cons_of_mem _ ha, hr⟩

theorem map_eq_of_forall₂ {k : α → γ} {j : β → γ}
    (h : List.Forall₂ (fun a b => j b = k a) l l') : l'.map j = l.map k := by
  induction h with
  | nil => rfl
  | cons hb _ ih => rw [List.map_cons, List.map_cons, hb, ih]

/-- A list made from another item by item. -/
theorem eq_map_of_forall₂ {k : α → β} (h : List.Forall₂ (fun a b => b = k a) l l') :
    l' = l.map k := by
  have hmap := map_eq_of_forall₂ (j := id) h
  rwa [List.map_id] at hmap

theorem filterMap_eq_of_forall₂ {k : α → Option γ} {j : β → Option γ}
    (h : List.Forall₂ (fun a b => j b = k a) l l') : l'.filterMap j = l.filterMap k := by
  induction h with
  | nil => rfl
  | cons hb _ ih => rw [List.filterMap_cons, List.filterMap_cons, hb, ih]

theorem flatMap_eq_of_forall₂ {k : α → List γ} {j : β → List γ}
    (h : List.Forall₂ (fun a b => j b = k a) l l') : l'.flatMap j = l.flatMap k := by
  induction h with
  | nil => rfl
  | cons hb _ ih => rw [List.flatMap_cons, List.flatMap_cons, hb, ih]

theorem findIdx?_eq_of_forall₂ {p : α → Bool} {q : β → Bool} (h : List.Forall₂ R l l')
    (hpq : ∀ a b, R a b → q b = p a) : l'.findIdx? q = l.findIdx? p := by
  induction h with
  | nil => rfl
  | cons hab _ ih => rw [List.findIdx?_cons, List.findIdx?_cons, hpq _ _ hab, ih]

/-- What a search finds in one list stands for what it finds in the other. -/
theorem find?_of_forall₂ {p : α → Bool} {q : β → Bool} (h : List.Forall₂ R l l')
    (hpq : ∀ a b, R a b → q b = p a) :
    (l.find? p = none ∧ l'.find? q = none) ∨
      ∃ a b, l.find? p = some a ∧ l'.find? q = some b ∧ R a b := by
  induction h with
  | nil => exact .inl ⟨rfl, rfl⟩
  | @cons a b _ _ hab _ ih =>
    rw [List.find?_cons, List.find?_cons, hpq a b hab]
    cases p a with
    | true => exact .inr ⟨a, b, rfl, rfl, hab⟩
    | false => exact ih

theorem forall₂_filterMap {S : γ → δ → Prop} {f : α → Option γ} {g : β → Option δ}
    (h : List.Forall₂ R l l')
    (hfg : ∀ a b, R a b → (f a = none ∧ g b = none) ∨ ∃ c d, f a = some c ∧ g b = some d ∧ S c d) :
    List.Forall₂ S (l.filterMap f) (l'.filterMap g) := by
  refine List.rel_filterMap (R := R) (fun a b hab => ?_) h
  obtain ⟨hf, hg⟩ | ⟨c, d, hf, hg, hcd⟩ := hfg a b hab
  · rw [hf, hg]
    exact .none
  · rw [hf, hg]
    exact .some hcd

/-- As many items are left of two lists that correspond. -/
theorem length_filterMap_of_forall₂ {f : α → Option γ} {g : β → Option δ}
    (h : List.Forall₂ R l l') (hR : ∀ a b, R a b → (g b).isSome = (f a).isSome) :
    (l'.filterMap g).length = (l.filterMap f).length := by
  rw [List.length_filterMap_eq_countP, List.length_filterMap_eq_countP]
  induction h with
  | nil => rfl
  | cons hab _ ih => rw [List.countP_cons, List.countP_cons, hR _ _ hab, ih]

end Pairs

/-! ### What is kept of a list -/

section Keeping

variable {l : List α}

/-- A change of every item, before and after some are dropped. -/
theorem filterMap_map_comm {drop : α → Option α} {h : α → α}
    (hdrop : ∀ a, drop (h a) = (drop a).map h) (l : List α) :
    (l.map h).filterMap drop = (l.filterMap drop).map h := by
  rw [List.filterMap_map, List.map_filterMap]
  exact congrArg (List.filterMap · l) (funext hdrop)

theorem filterMap_id_map (φ : α → α) (xs : List (Option α)) :
    (xs.map (Option.map φ)).filterMap id = (xs.filterMap id).map φ := by
  rw [List.filterMap_map, List.map_filterMap]
  rfl

/-- Lines of which the same is kept in two ways. -/
theorem map_filterMap_eq {tidy : α → Option α} {bare : α → β} {touch : α → β}
    {keep : β → Option β} (h : ∀ a ∈ l, (tidy a).map bare = keep (touch a)) :
    (l.filterMap tidy).map bare = (l.map touch).filterMap keep := by
  rw [List.map_filterMap, List.filterMap_map]
  exact List.filterMap_congr h

theorem filterMap_eq_self {keep : α → Option α} (hsame : ∀ a b, keep a = some b → b = a)
    (h : l.any (fun a => (keep a).isNone) = false) : l.filterMap keep = l := by
  induction l with
  | nil => rfl
  | cons a l ih =>
    rw [List.any_cons, Bool.or_eq_false_iff] at h
    cases ha : keep a with
    | none =>
      rw [ha] at h
      cases h.1
    | some b => rw [List.filterMap_cons_some ha, hsame a b ha, ih h.2]

theorem mem_filterMap_id {P : α → Prop} {xs : List (Option α)}
    (h : ∀ o ∈ xs, ∀ x ∈ o, P x) : ∀ x ∈ xs.filterMap id, P x := by
  intro x hx
  obtain ⟨o, ho, hox⟩ := List.mem_filterMap.mp hx
  exact h o ho x hox

theorem sum_filterMap {keep : α → Option α} (w : α → Nat) : ∀ l : List α,
    ((l.filterMap keep).map w).sum = (l.map fun a => (keep a).elim 0 w).sum
  | [] => rfl
  | a :: l => by
    cases ha : keep a with
    | none => simp [ha, sum_filterMap w l]
    | some b => simp [ha, sum_filterMap w l]

theorem flatMap_eq_map_filter {f : α → List β} {p : α → Bool} {g : α → β}
    (h : ∀ a ∈ l, f a = if p a then [] else [g a]) : l.flatMap f = (l.filter (!p ·)).map g := by
  induction l with
  | nil => rfl
  | cons a l ih =>
    obtain ⟨ha, hl⟩ := List.forall_mem_cons.mp h
    rw [List.flatMap_cons, ha, ih hl, List.filter_cons]
    cases p a <;> rfl

/-- If only items with a property lead to something, and to one thing at most, there are no more
things than such items. -/
theorem length_flatMap_le_countP {f : α → List β} {p : α → Bool} : ∀ {l : List α},
    (∀ a ∈ l, (f a).length ≤ if p a then 1 else 0) → (l.flatMap f).length ≤ l.countP p
  | [], _ => Nat.le_refl 0
  | a :: l, h => by
    obtain ⟨ha, hl⟩ := List.forall_mem_cons.mp h
    have ih := length_flatMap_le_countP hl
    rw [List.flatMap_cons, List.length_append, List.countP_cons]
    omega

end Keeping

/-! ### Walks -/

section Walks

variable {next : σ → α → σ} {W : σ → σ → Prop} {l before after : List α} {a : α}

theorem mem_of_split (hl : l = before ++ a :: after) : a ∈ l := by
  rw [hl]
  exact List.mem_append_right before List.mem_cons_self

/-- What grows at every step of a walk grows along the walk. -/
theorem grows_foldl (hrefl : ∀ u, W u u) (htrans : ∀ {u v w}, W u v → W v w → W u w)
    (h : ∀ u a, W u (next u a)) : ∀ (l : List α) (u : σ), W u (l.foldl next u)
  | [], u => hrefl u
  | a :: l, u => htrans (h u a) (grows_foldl hrefl htrans h l (next u a))

/-- Every state of a walk is within where the walk ends. -/
theorem grows_of_foldl (hrefl : ∀ u, W u u) (htrans : ∀ {u v w}, W u v → W v w → W u w)
    (h : ∀ u a, W u (next u a)) {u full : σ} (hl : l = before ++ a :: after)
    (hfull : W (l.foldl next u) full) : W (next (before.foldl next u) a) full := by
  rw [hl, List.foldl_append, List.foldl_cons] at hfull
  exact htrans (grows_foldl hrefl htrans h after _) hfull

/-- Names that are added one by one are added together. -/
theorem foldl_add {add : σ → List String → σ} (hnil : ∀ u, add u [] = u)
    (happend : ∀ u l l', add (add u l) l' = add u (l ++ l')) (name? : α → Option String) :
    ∀ (l : List α) (u : σ), l.foldl (fun u a => add u (name? a).toList) u =
      add u (l.filterMap name?)
  | [], u => (hnil u).symm
  | a :: l, u => by
    rw [List.foldl_cons, foldl_add hnil happend name? l, happend, List.filterMap_cons]
    cases name? a <;> rfl

/-- Of the names along a list, those up to an item are a part. -/
theorem count_split_le {k : α → List String} (hl : l = before ++ a :: after) (seen : List String)
    (x : String) : (seen ++ before.flatMap k ++ k a).count x ≤ (seen ++ l.flatMap k).count x := by
  subst hl
  apply List.Sublist.count_le
  rw [List.flatMap_append, List.flatMap_cons, List.append_assoc]
  exact (List.Sublist.refl seen).append ((List.Sublist.refl _).append (List.sublist_append_left _ _))

/-- A name that was seen before an item, and is one of its names, is there twice. -/
theorem two_le_count {k : α → List String} {x : String} (hl : l = before ++ a :: after)
    (hbefore : x ∈ before.flatMap k) (ha : x ∈ k a) : 2 ≤ (l.flatMap k).count x := by
  have hle := count_split_le (k := k) hl [] x
  have hpos := List.count_pos_iff.mpr hbefore
  have hpos' := List.count_pos_iff.mpr ha
  rw [List.nil_append, List.nil_append, List.count_append] at hle
  omega

end Walks

/-! ### Joined lists -/

theorem intercalate_cons (sep first : List Char) : ∀ rest : List (List Char),
    sep.intercalate (first :: rest) = first ++ (rest.map (sep ++ ·)).flatten
  | [] => by simp
  | second :: rest => by
    rw [List.intercalate_cons_cons, intercalate_cons sep second rest, List.map_cons,
      List.flatten_cons]
    simp only [List.append_assoc]

theorem intercalate_concat (sep last : List Char) (init : List (List Char)) (hinit : init ≠ []) :
    sep.intercalate (init ++ [last]) = sep.intercalate init ++ (sep ++ last) := by
  cases init with
  | nil => exact absurd rfl hinit
  | cons first rest =>
    rw [List.cons_append, intercalate_cons, intercalate_cons, List.map_append, List.flatten_append,
      List.append_assoc]
    simp

theorem intercalate_append (sep b line : List Char) (lines : List (List Char)) :
    sep.intercalate ((b ++ line) :: lines) = b ++ sep.intercalate (line :: lines) := by
  rw [intercalate_cons, intercalate_cons, List.append_assoc]

end Pseudonym

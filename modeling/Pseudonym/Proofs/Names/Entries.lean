/-
# Entries of tables

What pushing and setting do to the entries of a table, and to what is found in
it. A table is counted if its entries are a stem with the numbers 0, 1, 2 and
so on in their order, and no name has two of them; pushing the next number
under a new name keeps it so.
-/
import Pseudonym.Proofs.Lists
import Pseudonym.Proofs.Names.Numbered

namespace Pseudonym

namespace Table

variable {α : Type} {t : Table α} {name x : String} {a b : α}

/-- The names that have an entry, in the order of the entries. -/
def names (t : Table α) : List String := t.entries.map (·.1)

/-- What stands in the entries, in their order. -/
def contents (t : Table α) : List α := t.entries.map (·.2)

@[simp] theorem contents_empty : (empty : Table α).contents = [] := rfl

@[simp] theorem names_push (t : Table α) (name : String) (a : α) :
    (t.push name a).names = t.names ++ [name] := by
  simp [names, push]

@[simp] theorem contents_push (t : Table α) (name : String) (a : α) :
    (t.push name a).contents = t.contents ++ [a] := by
  simp [contents, push]

@[simp] theorem size_push (t : Table α) (name : String) (a : α) :
    (t.push name a).size = t.size + 1 := by
  simp [size, push]

theorem get?_eq_none_iff : t.get? x = none ↔ x ∉ t.names := by
  simp only [get?, names, List.lookup_eq_none_iff, List.mem_map, not_exists, not_and]
  constructor
  · intro h p hp hx
    simpa [hx] using h p hp
  · intro h p hp
    simpa using fun hx => h p hp hx.symm

theorem contains_iff : t.contains x = true ↔ x ∈ t.names := by
  have h : t.contains x = true ↔ t.get? x ≠ none := Option.isSome_iff_ne_none
  rw [h, ne_eq, get?_eq_none_iff, not_not]

theorem contains_eq_false : t.contains x = false ↔ x ∉ t.names := by
  rw [← contains_iff, Bool.not_eq_true]

/-! ### What is found -/

/-- What is put in behind the others is found if nothing else is. -/
theorem get?_push (t : Table α) (name : String) (a : α) (x : String) :
    (t.push name a).get? x = (t.get? x).or (if x = name then some a else none) := by
  rw [get?, push, List.lookup_append, List.lookup_cons]
  by_cases h : x = name
  · rw [if_pos h, beq_iff_eq.mpr h]
    rfl
  · rw [if_neg h, beq_false_of_ne h]
    rfl

theorem get?_push_self (h : t.contains name = false) : (t.push name a).get? name = some a := by
  rw [get?_push, get?_eq_none_iff.mpr (contains_eq_false.mp h), if_pos rfl, Option.none_or]

/-- Nothing that was found is lost behind a new entry. -/
theorem get?_push_of_some (h : t.get? x = some b) (name : String) (a : α) :
    (t.push name a).get? x = some b := by
  rw [get?_push, h, Option.some_or]

theorem get?_set (t : Table α) (name : String) (a : α) (x : String) :
    (t.set name a).get? x = if x = name then some a else t.get? x := by
  unfold set
  by_cases hc : t.contains name = true
  · obtain ⟨b, hb⟩ := Option.isSome_iff_exists.mp hc
    rw [if_pos hc]
    refine (lookup_replaced name a x t.entries).trans ?_
    by_cases hx : x = name
    · rw [if_pos hx, if_pos hx, hx]
      exact congrArg (Option.map fun _ => a) hb
    · rw [if_neg hx, if_neg hx]
      rfl
  · have hnone := get?_eq_none_iff.mpr fun h => hc (contains_iff.mpr h)
    rw [if_neg hc, get?_push]
    by_cases hx : x = name
    · rw [if_pos hx, if_pos hx, hx, hnone, Option.none_or]
    · rw [if_neg hx, if_neg hx, Option.or_none]

theorem set_of_contains_eq_false (h : t.contains name = false) : t.set name a = t.push name a := by
  rw [set, h]
  rfl

theorem contains_set_self (t : Table α) (name : String) (a : α) :
    (t.set name a).contains name = true := by
  rw [contains, get?_set, if_pos rfl, Option.isSome_some]

/-- Of two contents for one name the second stays. -/
theorem set_set (t : Table α) (name : String) (a b : α) :
    (t.set name a).set name b = t.set name b := by
  rw [set, if_pos (contains_set_self t name a), set, set]
  split
  · simp only [List.map_map, mk.injEq]
    refine List.map_congr_left fun e _ => ?_
    by_cases he : e.1 = name <;> simp [he]
  · next h =>
    have hnone := contains_eq_false.mp (Bool.not_eq_true _ ▸ h)
    have hkeep : t.entries.map (fun e => if e.1 = name then (e.1, b) else e) = t.entries :=
      (List.map_congr_left fun e he =>
        if_neg fun hname => hnone (List.mem_map.mpr ⟨e, he, hname⟩)).trans (List.map_id' _)
    simp [push, hkeep]

theorem change_of_get? (h : t.get? name = some a) (f : α → α) :
    t.change name f = t.set name (f a) := by
  rw [change, h]

theorem get?_ensure_self (t : Table α) (name : String) (a : α) :
    (t.ensure name a).get? name = some ((t.get? name).getD a) := by
  unfold ensure
  cases h : t.contains name with
  | true =>
    obtain ⟨b, hb⟩ := Option.isSome_iff_exists.mp h
    rw [if_pos rfl, hb, Option.getD_some]
  | false =>
    rw [if_neg Bool.false_ne_true, get?_push_self h,
      get?_eq_none_iff.mpr (contains_eq_false.mp h), Option.getD_none]

theorem set_ensure (t : Table α) (name : String) (a b : α) :
    (t.ensure name a).set name b = t.set name b := by
  unfold ensure
  cases h : t.contains name with
  | true => rw [if_pos rfl]
  | false => rw [if_neg Bool.false_ne_true, ← set_of_contains_eq_false h, set_set]

/-! ### Entries -/

theorem names_set (t : Table α) (name : String) (a : α) :
    (t.set name a).names = if t.contains name then t.names else t.names ++ [name] := by
  unfold set
  split
  · simp only [names, List.map_map]
    refine List.map_congr_left fun p _ => ?_
    rw [Function.comp_apply]
    split <;> rfl
  · exact names_push t name a

theorem mem_entries_set {p : String × α} (h : p ∈ (t.set name a).entries) :
    p = (name, a) ∨ p ∈ t.entries := by
  unfold set at h
  split at h
  · obtain ⟨q, hq, rfl⟩ := List.mem_map.mp h
    by_cases hname : q.1 = name
    · rw [if_pos hname, hname]
      exact .inl rfl
    · rw [if_neg hname]
      exact .inr hq
  · rcases List.mem_append.mp h with h | h
    · exact .inr h
    · exact .inl (List.mem_singleton.mp h)

theorem mem_entries_push {p : String × α} (h : p ∈ (t.push name a).entries) :
    p = (name, a) ∨ p ∈ t.entries := by
  rcases List.mem_append.mp h with h | h
  · exact .inr h
  · exact .inl (List.mem_singleton.mp h)

theorem mem_of_get? (h : t.get? name = some a) : (name, a) ∈ t.entries := by
  obtain ⟨before, after, hentries, -⟩ := List.lookup_eq_some_iff.mp h
  rw [hentries]
  exact List.mem_append_right _ List.mem_cons_self

/-- Where no name has two entries, setting one leaves the others in their places. -/
theorem set_at (hnodup : t.names.Nodup) (h : t.get? name = some a) : ∃ before after,
    t.entries = before ++ (name, a) :: after ∧
      ∀ b, (t.set name b).entries = before ++ (name, b) :: after := by
  obtain ⟨before, after, hentries⟩ := List.append_of_mem (mem_of_get? h)
  refine ⟨before, after, hentries, fun b => ?_⟩
  rw [names, hentries, List.map_append, List.map_cons, List.nodup_middle, List.nodup_cons] at hnodup
  have hkeep : ∀ l : List (String × α), (∀ p ∈ l, p ∈ before ++ after) →
      l.map (fun e => if e.1 = name then (e.1, b) else e) = l := by
    intro l hl
    refine (List.map_congr_left fun p hp => if_neg fun hname => hnodup.1 ?_).trans (List.map_id' l)
    rw [← List.map_append]
    exact List.mem_map.mpr ⟨p, hl p hp, hname⟩
  have hc : t.contains name = true := by rw [contains, h, Option.isSome_some]
  rw [set, if_pos hc, hentries, List.map_append, List.map_cons, if_pos rfl,
    hkeep before fun p => List.mem_append_left after,
    hkeep after fun p => List.mem_append_right before]

/-! ### Counted tables -/

/-- The entries are the stem with the numbers from 0 on, and no name has two of them. -/
structure Counted (stem : Nat → String) (t : Table String) : Prop where
  names : t.names.Nodup
  contents : t.contents = (List.range t.size).map stem

theorem Counted.empty (stem : Nat → String) : Counted stem .empty := ⟨List.nodup_nil, rfl⟩

theorem nodup_names_push (h : t.names.Nodup) (hnew : t.contains name = false) :
    (t.push name a).names.Nodup := by
  rw [names_push, List.nodup_append]
  refine ⟨h, List.nodup_singleton name, fun y hy z hz hyz => contains_eq_false.mp hnew ?_⟩
  rwa [← List.mem_singleton.mp hz, ← hyz]

/-- The next number goes to the next entry. -/
theorem contents_push_next {stem : Nat → String} {t : Table String}
    (h : t.contents = (List.range t.size).map stem) (name : String) :
    (t.push name (stem t.size)).contents =
      (List.range (t.push name (stem t.size)).size).map stem := by
  simp [h, List.range_succ]

theorem Counted.push {stem : Nat → String} {t : Table String} (h : t.Counted stem)
    (hnew : t.contains name = false) : (t.push name (stem t.size)).Counted stem :=
  ⟨nodup_names_push h.names hnew, contents_push_next h.contents name⟩

/-- Distinct numbers make the entries of a counted table distinct. -/
theorem Counted.nodup_contents {stem : Nat → String} (hstem : ∀ i j, stem i = stem j → i = j)
    {t : Table String} (h : t.Counted stem) : t.contents.Nodup := by
  rw [h.contents]
  exact List.nodup_range.map fun i j => hstem i j

end Table

/-- The names of a scope have the numbers from 0 on, and its counter is in step with them. -/
structure Scope.Counted (stem : Nat → String) (s : Scope) : Prop where
  names : s.names.Counted stem
  next : s.next = s.names.size

namespace Scope

/-- The scope with one more name, and one more number used up. -/
def add (s : Scope) (name new : String) : Scope := ⟨s.names.push name new, s.next + 1⟩

theorem Counted.empty (stem : Nat → String) : Counted stem .empty := ⟨.empty stem, rfl⟩

theorem Counted.add {stem : Nat → String} {s : Scope} {name : String} (h : s.Counted stem)
    (hnew : s.names.contains name = false) : (s.add name (stem s.next)).Counted stem := by
  refine ⟨?_, ?_⟩
  · rw [Scope.add, h.next]
    exact h.names.push hnew
  · rw [Scope.add, h.next, Table.size_push]

end Scope

end Pseudonym

/-
# Tables

A table gives names their entries and keeps them in the order in which they
were put in. An entry is put in once; only its content may change later.
-/

namespace Pseudonym

/-- Names with their entries, the oldest first. -/
structure Table (α : Type) where
  entries : List (String × α)
  deriving DecidableEq, Repr

namespace Table

variable {α β : Type}

/-- The table without entries. -/
def empty : Table α := ⟨[]⟩

/-- The number of entries. -/
def size (t : Table α) : Nat := t.entries.length

/-- The entry of a name. -/
def get? (t : Table α) (name : String) : Option α := t.entries.lookup name

/-- Whether a name has an entry. -/
def contains (t : Table α) (name : String) : Bool := (t.get? name).isSome

/-- Puts in an entry behind the others. -/
def push (t : Table α) (name : String) (entry : α) : Table α := ⟨t.entries ++ [(name, entry)]⟩

/-- Replaces the entry of a name, or puts it in if there is none. -/
def set (t : Table α) (name : String) (entry : α) : Table α :=
  if t.contains name then
    ⟨t.entries.map fun e => if e.1 = name then (e.1, entry) else e⟩
  else t.push name entry

/-- Changes the entry of a name, if it has one. -/
def change (t : Table α) (name : String) (f : α → α) : Table α :=
  match t.get? name with
  | some entry => t.set name (f entry)
  | none => t

/-- Puts in an entry for a name that has none. -/
def ensure (t : Table α) (name : String) (entry : α) : Table α :=
  if t.contains name then t else t.push name entry

/-- Changes every entry. -/
def map (f : α → β) (t : Table α) : Table β := ⟨t.entries.map fun e => (e.1, f e.2)⟩

end Table

end Pseudonym

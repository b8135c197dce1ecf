import Treewalk.Sort

/-! # Tables

    A table maps names to entries.  Names are kept in the order in which they
    first arrived; writing to a name that is present replaces its entry in
    place. -/

namespace Treewalk

/-- A finite map from names. -/
structure Table (α : Type) where
  /-- The names with their entries, oldest first. -/
  entries : List (String × α)
deriving Repr

namespace Table

variable {α : Type}

/-- The table without names. -/
def empty : Table α := ⟨[]⟩

/-- The entry of a name. -/
def find? (t : Table α) (name : String) : Option α := t.entries.lookup name

/-- The name has an entry. -/
def contains (t : Table α) (name : String) : Bool := (t.find? name).isSome

/-- Writes an entry into a list of entries. -/
def put (name : String) (a : α) : List (String × α) → List (String × α)
  | [] => [(name, a)]
  | (key, b) :: rest => if name == key then (key, a) :: rest else (key, b) :: put name a rest

/-- Writes the entry of a name. -/
def insert (t : Table α) (name : String) (a : α) : Table α := ⟨put name a t.entries⟩

/-- The names in the order of their arrival. -/
def names (t : Table α) : List String := t.entries.map (·.1)

/-- The names in alphabetical order, by code point. -/
def sortedNames (t : Table α) : List String := sortBy (fun a b => decide (a ≤ b)) t.names

end Table

end Treewalk

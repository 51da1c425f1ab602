import CausalServe.Ids

/-! Values by request, in the order in which their requests came in. -/

namespace CausalServe

structure Table (α : Type) where
  entries : List (RequestId × α) := []

namespace Table

variable {α : Type}

def get? (t : Table α) (id : RequestId) : Option α := t.entries.lookup id

def contains (t : Table α) (id : RequestId) : Bool := (t.get? id).isSome

def keys (t : Table α) : List RequestId := t.entries.map Prod.fst

/-- Puts in a value for a request that has none. -/
def insert (t : Table α) (id : RequestId) (a : α) : Table α := ⟨t.entries ++ [(id, a)]⟩

/-- Changes the value of a request that has one. -/
def modify (t : Table α) (id : RequestId) (f : α → α) : Table α :=
  ⟨t.entries.map fun (key, a) => if key = id then (key, f a) else (key, a)⟩

def erase (t : Table α) (id : RequestId) : Table α :=
  ⟨t.entries.filter fun (key, _) => key ≠ id⟩

end Table

end CausalServe

/-! Tables of names: each name has one value, and names keep the order in which they came. -/

namespace Dcpu16

/-- A table of named values, in the order in which the names came. -/
structure NameTable (α : Type) where
  entries : List (String × α)
  deriving DecidableEq, Repr

namespace NameTable

variable {α : Type}

/-- The table without names. -/
def empty : NameTable α := ⟨[]⟩

instance : Inhabited (NameTable α) := ⟨empty⟩

/-- The number of names. -/
def size (t : NameTable α) : Nat := t.entries.length

/-- The names, in order. -/
def names (t : NameTable α) : List String := t.entries.map Prod.fst

/-- The value of a name. -/
def find? (t : NameTable α) (name : String) : Option α :=
  t.entries.lookup name

/-- Give a name a value.  A name that is already there keeps its place, a new one comes last. -/
def insert (t : NameTable α) (name : String) (value : α) : NameTable α :=
  match t.find? name with
  | some _ => ⟨t.entries.map fun e => if e.1 = name then (name, value) else e⟩
  | none => ⟨t.entries ++ [(name, value)]⟩

/-- Remove a name; the others keep their order. -/
def erase (t : NameTable α) (name : String) : NameTable α :=
  ⟨t.entries.filter fun e => e.1 ≠ name⟩

/-- The first `n` names. -/
def take (t : NameTable α) (n : Nat) : NameTable α :=
  ⟨t.entries.take n⟩

end NameTable

end Dcpu16

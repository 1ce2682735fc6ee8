import Dcpu16.Symbol.Basic

/-! The symbols of a program and the table that all its files share. -/

namespace Dcpu16

/-- The symbols of a program, and the names that its files see. -/
structure Program where
  symbols : SymbolStore
  table : SymbolTable
  deriving DecidableEq, Repr

/-- How many symbols and names there are at some point. -/
structure Checkpoint where
  symbols : Nat
  names : Nat
  deriving DecidableEq, Repr

namespace Program

/-- The program without symbols. -/
def empty : Program := ⟨.empty, .empty⟩

/-- The point that has been reached. -/
def checkpoint (p : Program) : Checkpoint :=
  ⟨p.symbols.size, p.table.size⟩

/-- Drop the symbols and names that came after a point. -/
def rollback (p : Program) (point : Checkpoint) : Program :=
  ⟨p.symbols.take point.symbols, p.table.take point.names⟩

/-- The symbol that `name` stands for in `file`, below the global symbol `scope`. -/
def resolve (p : Program) (file name : String) (scope : Option SymbolId) :
    Except (Stop AsmError) (Option SymbolId) :=
  p.symbols.resolve p.table file name scope

/-- Note that symbols are referred to. -/
def markReferenced (p : Program) (ids : List SymbolId) : Program :=
  { p with symbols := ids.foldl SymbolStore.markReferenced p.symbols }

/-- The names of symbols that nothing refers to, in the order of the table. -/
def unreferenced? (p : Program) : Option (List String) := do
  let named ← p.table.entries.mapM fun e => return (e.1, ← p.symbols.get? e.2)
  return (named.filter fun e => !e.2.referenced).map Prod.fst

end Program

end Dcpu16

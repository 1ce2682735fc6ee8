import Dcpu16.Diagnostic
import Dcpu16.Symbol.Program

/-! What a program has come to while its files are assembled one after the other.  A file that
fails leaves its diagnostics behind, so the state outlives an error. -/

namespace Dcpu16

/-- The symbols and the diagnostics so far. -/
structure Session where
  program : Program
  log : Log
  deriving DecidableEq, Repr

/-- The start of a session. -/
def Session.empty : Session := ⟨.empty, []⟩

/-- A step that changes the session and can stop. -/
abbrev Assembler := EStateM (Stop LocatedError) Session

namespace Assembler

variable {α : Type}

/-- Stop with an error. -/
def fail (e : LocatedError) : Assembler α :=
  throw (.error e)

/-- The value, or the fault `f` if there is none. -/
def require (f : Fault) : Option α → Assembler α
  | some a => pure a
  | none => throw (.fault f)

/-- The value, or its error put in place by `locate`. -/
def located (locate : AsmError → LocatedError) : Except (Stop AsmError) α → Assembler α
  | .ok a => pure a
  | .error e => throw (e.mapError locate)

/-- Add a diagnostic. -/
def report (d : Diagnostic) : Assembler Unit :=
  modify fun s => { s with log := s.log ++ [d] }

/-- The symbol with a given number. -/
def symbol (id : SymbolId) : Assembler Symbol := do
  require .missingSymbol ((← get).program.symbols.get? id)

/-- The mangled name of a symbol. -/
def mangled (id : SymbolId) : Assembler String := do
  require .missingSymbol ((← get).program.symbols.mangled? id)

/-- Replace the symbols. -/
def setSymbols (symbols : SymbolStore) : Assembler Unit :=
  modify fun s => { s with program := { s.program with symbols } }

/-- Make a symbol. -/
def addSymbol (place : Place) (name : String) (parent : Option SymbolId) :
    Assembler SymbolId := do
  let (id, symbols) ← require .missingSymbol ((← get).program.symbols.add? place name parent)
  setSymbols symbols
  return id

/-- Bind a symbol to the place of its record, unless it is bound already. -/
def define (place : Place) (id : SymbolId) : Assembler Bool := do
  let (isNew, symbols) ← require .missingSymbol ((← get).program.symbols.define? id place)
  setSymbols symbols
  return isNew

/-- Note that symbols are referred to. -/
def markReferenced (ids : List SymbolId) : Assembler Unit :=
  modify fun s => { s with program := s.program.markReferenced ids }

end Assembler

end Dcpu16

import Dcpu16.ObjectFile.Labels
import Dcpu16.ObjectFile.Records

/-! Assembling one file of a program. -/

namespace Dcpu16

/-- An assembled file. -/
structure ObjectFile where
  file : String
  lines : List SourceLine
  /-- The symbols of the file by their mangled names. -/
  table : SymbolTable
  /-- The names that the file asks to hide, with their lines. -/
  hidden : List (String × Nat)
  records : List Record
  functions : NameTable FunctionSpan
  deriving DecidableEq, Repr

namespace ObjectFile

/-- The number of words of the file, if the literals of all operands can be added up. -/
def measure (o : ObjectFile) : Except Fault Nat :=
  o.records.foldlM (fun total r => return total + (← r.content.measure)) 0

/-- Make the symbols and the records of a file. -/
def ofSource (options : Options) (source : SourceFile) : Assembler ObjectFile := do
  let table ← source.addLabels options.redefinition
  let table ← source.hideNames table
  source.publish options.redefinition table
  let build ← source.build table
  return {
    file := source.file
    lines := source.lines
    table
    hidden := source.hiddenNames.map fun h => (h.1, h.2.number)
    records := build.records
    functions := build.functions.spans }

/-- Run a step; if it stops, drop the symbols and names it has made. -/
def undoing {α : Type} (step : Assembler α) : Assembler α := fun s =>
  match step s with
  | .ok a s' => .ok a s'
  | .error e s' => .error e { s' with program := s'.program.rollback s.program.checkpoint }

/-- Assemble a file.  A file that fails adds no symbols and no names to the program. -/
def assemble (options : Options) (file text : String) : Assembler ObjectFile := do
  let source ← SourceFile.read file text
  undoing (ofSource options source)

end ObjectFile

end Dcpu16

import Dcpu16.ObjectFile.FunctionSpans
import Dcpu16.ObjectFile.Lines
import Dcpu16.Record

/-! The records of a file.  A label stands for the next record, also if that is lines below it;
labels behind the last record get a mark of their own. -/

namespace Dcpu16.SourceFile

/-- The records of a file while its lines are read. -/
structure Build where
  records : List Record
  /-- Labels that wait for the next record. -/
  pending : List SymbolId
  /-- The last label that is not local. -/
  scope : Option SymbolId
  functions : FunctionSpans
  deriving DecidableEq, Repr

/-- The symbol of the label of a line, in the table of the file. -/
def ownLabel (source : SourceFile) (table : SymbolTable) (line : SourceLine) (label : Label)
    (scope : Option SymbolId) : Assembler SymbolId := do
  let symbols := (← get).program.symbols
  let found ← Assembler.located (source.locate line)
    (symbols.resolve table source.file label.name scope)
  match found with
  | some id => return id
  | none => Assembler.fail (source.locate line (.undefinedSymbol label.name))

/-- Take the label of a line into account. -/
def enterLabel (source : SourceFile) (table : SymbolTable) (line : SourceLine) (build : Build) :
    Assembler Build :=
  match line.statement.label with
  | none => pure build
  | some label => do
    let id ← source.ownLabel table line label build.scope
    return { build with
      pending := build.pending ++ [id]
      scope := if label.isLocal then build.scope else some id }

end Dcpu16.SourceFile

namespace Dcpu16

/-- The mangled name of the symbol that `name` stands for, and that symbol.  A name without a symbol
stays as it is. -/
def Program.bindName (p : Program) (file : String) (scope : Option SymbolId) (name : String) :
    Except Fault (String × Option SymbolId) :=
  match p.resolve file name scope with
  | .ok (some id) =>
    match p.symbols.mangled? id with
    | some mangled => .ok (mangled, some id)
    | none => .error .missingSymbol
  | .error (.fault f) => .error f
  | _ => .ok (name, none)

namespace SourceFile

/-- Put a mangled name in the place of a name, if its symbol is known already. -/
def bindName (source : SourceFile) (scope : Option SymbolId) (name : String) :
    Assembler String := do
  match (← get).program.bindName source.file scope name with
  | .ok (bound, id) =>
    Assembler.markReferenced id.toList
    return bound
  | .error f => throw (.fault f)

/-- What a line adds to the image. -/
def content? (source : SourceFile) (line : SourceLine) (scope : Option SymbolId) :
    Assembler (Option Content) :=
  match line.statement.body with
  | .instruction op operands => do
    let operands ← operands.mapM (Expr.mapReferences (source.bindName scope))
    return some (.operation ⟨op, operands⟩)
  | .directive d rest =>
    if d.isData then do
      return some (.data (← Assembler.located (source.locate line) (Data.parse d rest)))
    else pure none
  | .empty | .unknown _ => pure none

/-- Bind symbols to a place.  The result has those that were not bound before. -/
def bindSymbols (place : Place) : List SymbolId → Assembler (List SymbolId)
  | [] => pure []
  | id :: ids => do
    let isNew ← Assembler.define place id
    let rest ← bindSymbols place ids
    return if isNew then id :: rest else rest

/-- Add a record, and bind the labels that wait for it. -/
def addRecord (source : SourceFile) (line : SourceLine) (content : Content) (build : Build) :
    Assembler Build := do
  let defined ← bindSymbols ⟨source.file, line.number⟩ build.pending
  let record : Record :=
    { file := source.file, line := line.number, text := line.text, scope := build.scope, content,
      defined }
  return { build with records := build.records ++ [record], pending := [] }

/-- Take the functions that a line opens or closes into account. -/
def markFunction (source : SourceFile) (line : SourceLine) (build : Build) : Assembler Build := do
  let (functions, warning) := build.functions.step line.number line.statement.body
  match warning with
  | some message => source.warn line message
  | none => pure ()
  return { build with functions }

/-- Take a line into account. -/
def buildLine (source : SourceFile) (table : SymbolTable) (build : Build) (line : SourceLine) :
    Assembler Build := do
  let build ← source.enterLabel table line build
  let build ← source.markFunction line build
  match ← source.content? line build.scope with
  | some content => source.addRecord line content build
  | none => return build

/-- Warn about a function that is open at the end of the file. -/
def closeFunctions (source : SourceFile) (build : Build) : Assembler Unit :=
  match build.functions.opened with
  | some name => do
    let first := ((build.functions.spans.find? name).map FunctionSpan.first).getD 0
    source.warn (← source.line first) (AsmError.quoted (".func " ++ name) ++ " is never closed")
  | none => pure ()

/-- Add a mark for labels behind the last record. -/
def closeLabels (source : SourceFile) (build : Build) : Assembler Build :=
  match build.pending with
  | first :: _ => do
    let sym ← Assembler.symbol first
    source.addRecord (← source.line sym.place.line) .mark build
  | [] => pure build

/-- Make the records of the file. -/
def build (source : SourceFile) (table : SymbolTable) : Assembler Build := do
  let build ← source.lines.foldlM (source.buildLine table) ⟨[], [], none, .empty⟩
  source.closeFunctions build
  source.closeLabels build

end SourceFile

end Dcpu16

import Dcpu16.ObjectFile.Lines
import Dcpu16.Options.Basic

/-! The labels of a file become symbols: first in a table of the file, where names can be hidden,
and then in the table that all files share. -/

namespace Dcpu16.SourceFile

/-- Deal with a name that is defined again in `line`.  If it stays, a note shows the first
definition; its text is known if it stands in a file of the same name. -/
def redefine (source : SourceFile) (policy : Redefinition) (name : String) (line : SourceLine)
    (first : Place) : Assembler Unit :=
  match policy with
  | .error => Assembler.fail (source.locate line (.redefined name))
  | .warn => do
    source.warn line
      ("Symbol redefined: " ++ AsmError.quoted name ++ ". Keeping the first definition.")
    let text ← if first.file = source.file then
        (fun (line : SourceLine) => line.text) <$> source.line first.line
      else pure ""
    Assembler.report ⟨.note, "First defined here.", first.file, first.line, text⟩

/-- The symbols of a file while its labels are read. -/
structure Labels where
  table : SymbolTable
  /-- The last label that is not local. -/
  owner : Option SymbolId
  deriving DecidableEq, Repr

/-- The symbol that a label is local to. -/
def parentOf (source : SourceFile) (line : SourceLine) (label : Label) (owner : Option SymbolId) :
    Assembler (Option SymbolId) :=
  if label.isLocal then
    match owner with
    | some id => pure (some id)
    | none => Assembler.fail (source.locate line (.orphanLocal label.name))
  else pure none

/-- The name of a label in the table of its file. -/
def labelKey (label : Label) : Option SymbolId → Assembler String
  | some parent => do return Symbol.localName (← Assembler.mangled parent) label.name
  | none => pure label.name

/-- Make a symbol for the label of a line. -/
def addLabel (source : SourceFile) (policy : Redefinition) (labels : Labels) (line : SourceLine) :
    Assembler Labels :=
  match line.statement.label with
  | none => pure labels
  | some label => do
    let parent ← source.parentOf line label labels.owner
    let key ← labelKey label parent
    match labels.table.find? key with
    | some first =>
      let sym ← Assembler.symbol first
      source.redefine policy key line sym.place
      return { labels with owner := if parent.isNone then some first else labels.owner }
    | none =>
      let id ← Assembler.addSymbol ⟨source.file, line.number⟩ label.name parent
      return ⟨labels.table.insert key id, if parent.isNone then some id else labels.owner⟩

/-- Make a symbol for every label of the file. -/
def addLabels (source : SourceFile) (policy : Redefinition) : Assembler SymbolTable := do
  let labels ← source.lines.foldlM (source.addLabel policy) ⟨.empty, none⟩
  return labels.table

/-- Hide a name of the file, which has to be in its table. -/
def hideName (source : SourceFile) (table : SymbolTable) (hidden : String × SourceLine) :
    Assembler SymbolTable :=
  match table.find? hidden.1 with
  | some id => do
    let (symbols, table) ←
      Assembler.require .missingSymbol ((← get).program.symbols.hide? table id)
    Assembler.setSymbols symbols
    return table
  | none => do
    source.warn hidden.2
      ("Setting visibility of undefined symbol " ++ AsmError.quoted hidden.1 ++ ". Skipping.")
    return table

/-- Hide the names that the file asks to hide. -/
def hideNames (source : SourceFile) (table : SymbolTable) : Assembler SymbolTable :=
  source.hiddenNames.foldlM source.hideName table

/-- Put a name of the file into the shared table, unless it is there. -/
def publishName (source : SourceFile) (policy : Redefinition) (entry : String × SymbolId) :
    Assembler Unit := do
  match (← get).program.table.find? entry.1 with
  | none =>
    modify fun s =>
      { s with program := { s.program with table := s.program.table.insert entry.1 entry.2 } }
  | some first =>
    let sym ← Assembler.symbol first
    let own ← Assembler.symbol entry.2
    source.redefine policy entry.1 (← source.line own.place.line) sym.place

/-- Put the names of the file into the shared table. -/
def publish (source : SourceFile) (policy : Redefinition) (table : SymbolTable) :
    Assembler Unit :=
  table.entries.forM (source.publishName policy)

end Dcpu16.SourceFile

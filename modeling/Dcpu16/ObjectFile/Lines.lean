import Dcpu16.ObjectFile.Session
import Dcpu16.Source.Statement
import Dcpu16.Text.Tidy

/-! The lines of a source file and the statements they hold. -/

namespace Dcpu16

open Text

/-- A line of a source file, counted from zero, with its statement. -/
structure SourceLine where
  number : Nat
  text : String
  statement : Statement
  deriving DecidableEq, Repr

/-- A source file. -/
structure SourceFile where
  file : String
  lines : List SourceLine
  deriving DecidableEq, Repr

namespace SourceFile

/-- An error in a line of the file. -/
def locate (source : SourceFile) (line : SourceLine) (e : AsmError) : LocatedError :=
  ⟨e, source.file, line.number, line.text⟩

/-- Warn about a line of the file. -/
def warn (source : SourceFile) (line : SourceLine) (message : String) : Assembler Unit :=
  Assembler.report ⟨.warning, message, source.file, line.number, line.text⟩

/-- The line with a given number. -/
def line (source : SourceFile) (number : Nat) : Assembler SourceLine :=
  Assembler.require .missingLine source.lines[number]?

/-- The names that the file hides, with the lines that say so. -/
def hiddenNames (source : SourceFile) : List (String × SourceLine) :=
  source.lines.flatMap fun line => line.statement.hiddenNames.map fun name => (name, line)

/-- Read a line.  A warning shows its tidy form. -/
def readLine (file text : String) (number : Nat) : Assembler SourceLine := do
  let tidied := tidy text.toList
  match Statement.parse tidied with
  | .error e => Assembler.fail ⟨e, file, number, text⟩
  | .ok statement =>
    match statement.warning? with
    | some message =>
      Assembler.report ⟨.warning, message, file, number, String.ofList tidied⟩
    | none => pure ()
    return ⟨number, text, statement⟩

/-- Read the lines of a file. -/
def read (file text : String) : Assembler SourceFile := do
  let texts := (Text.lines text.toList).map String.ofList
  return ⟨file, ← texts.zipIdx.mapM fun line => readLine file line.1 line.2⟩

end SourceFile

end Dcpu16

import Dcpu16.Error
import Dcpu16.Text.Cut
import Dcpu16.Text.Styled

/-! Diagnostics: messages about a source line, in the order in which they arise. -/

namespace Dcpu16

open Text

/-- How grave a diagnostic is. -/
inductive Severity where
  | error
  | warning
  | note
  deriving DecidableEq, Repr

/-- A message about a source line.  Lines are counted from zero. -/
structure Diagnostic where
  severity : Severity
  message : String
  file : String
  line : Nat
  text : String
  deriving DecidableEq, Repr

/-- The word in front of a message. -/
def Severity.heading : Severity → Styled
  | error => Styled.strong .red "error"
  | warning => Styled.strong .yellow "warn"
  | note => Styled.strong .green "note"

namespace Diagnostic

/-- The diagnostic that reports an error. -/
def ofError (e : LocatedError) : Diagnostic :=
  ⟨.error, e.error.message, e.file, e.line, e.text⟩

/-- The lines that show a diagnostic: the message, the place, and the source line in a frame. -/
def shown (d : Diagnostic) : List String :=
  let bar := Styled.bare "      " ++ Styled.inStyle .blue "|"
  let number := padLeft 4 (Numeral.decimal (d.line + 1))
  [(d.severity.heading ++ Styled.bare (": " ++ d.message)).ansi,
    (Styled.bare "     " ++ Styled.inStyle .blue "-->" ++ Styled.bare " " ++
      Styled.inStyle .underline (shownPlace d.file d.line)).ansi,
    bar.ansi,
    (Styled.bare " " ++ Styled.inStyle .blue (number ++ " |") ++ Styled.bare (" " ++ d.text)).ansi,
    bar.ansi]

end Diagnostic

/-- Diagnostics in the order in which they arose. -/
abbrev Log := List Diagnostic

namespace Log

/-- The diagnostics of one severity. -/
def ofSeverity (log : Log) (severity : Severity) : Log :=
  log.filter fun d => d.severity = severity

/-- Does the log hold an error? -/
def hasError (log : Log) : Bool :=
  log.any fun d => d.severity = .error

end Log

end Dcpu16

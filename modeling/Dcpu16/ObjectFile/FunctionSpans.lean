import Dcpu16.NameTable
import Dcpu16.Source.Statement

/-! Functions: the lines between `.func name` and the next `.endfunc`. -/

namespace Dcpu16

/-- The lines of a function, counted from zero. -/
structure FunctionSpan where
  first : Nat
  /-- The line that closes the function. -/
  last : Option Nat
  deriving DecidableEq, Repr

/-- The functions of a file while its lines are read. -/
structure FunctionSpans where
  spans : NameTable FunctionSpan
  /-- The name of the function that is not closed yet. -/
  opened : Option String
  deriving DecidableEq, Repr

namespace FunctionSpans

/-- No functions. -/
def empty : FunctionSpans := ⟨.empty, none⟩

/-- Open a function in a line.  A function that is open stays without an end. -/
def enter (f : FunctionSpans) (line : Nat) (name : String) : FunctionSpans × Option String :=
  (⟨f.spans.insert name ⟨line, none⟩, some name⟩,
    f.opened.map fun other =>
      AsmError.quoted (".func " ++ other) ++ " is not closed before the next `.func`")

/-- Close the function that is open. -/
def leave (f : FunctionSpans) (line : Nat) : FunctionSpans × Option String :=
  match f.opened.bind fun name => (f.spans.find? name).map fun span => (name, span) with
  | some (name, span) => (⟨f.spans.insert name { span with last := some line }, none⟩, none)
  | none => ({ f with opened := none }, some "`.endfunc` without `.func`")

/-- The functions after a line, with the warning it asks for. -/
def step (f : FunctionSpans) (line : Nat) (body : Body) : FunctionSpans × Option String :=
  match body with
  | .directive .func name => f.enter line name
  | .directive .endfunc _ => f.leave line
  | _ => (f, none)

end FunctionSpans

end Dcpu16

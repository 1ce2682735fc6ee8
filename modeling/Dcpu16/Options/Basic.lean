import Dcpu16.Isa.Word

/-! The options of a run. -/

namespace Dcpu16

/-- What happens to a label that is already defined. -/
inductive Redefinition where
  /-- The first definition stays, with a warning. -/
  | warn
  /-- The second definition is an error. -/
  | error
  deriving DecidableEq, Repr

/-- The options of a run. -/
structure Options where
  /-- The address of the first word. -/
  baseAddress : Word := 0
  /-- Report records that cannot be encoded and fill them with zeros. -/
  keepGoing : Bool := false
  verbose : Bool := false
  redefinition : Redefinition := .warn
  /-- A symbol to jump to before anything else. -/
  entry : Option String := none
  deriving DecidableEq, Repr

end Dcpu16

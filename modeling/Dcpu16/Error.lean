import Dcpu16.Text.Numeral

/-! What can go wrong.  An `AsmError` is a fault of the source text or of its link; it has a message
and a kind.  A `Fault` is a question that the assembler's own tables or arithmetic cannot answer. -/

namespace Dcpu16

open Text

/-- The stage an error belongs to. -/
inductive ErrorKind where
  | parse
  | eval
  | link
  | encode
  deriving DecidableEq, Repr

/-- An error in the source or in the link. -/
inductive AsmError where
  | badToken (token : String)
  | redundantLabel (name : String)
  | reservedLabel (name : String)
  | operandCount (mnemonic : String) (expected found : Nat)
  | emptyOperand
  | unbalancedBrackets (text : String)
  | reservedBrace (text : String)
  | unknownTerm (text : String)
  | badLiteral (token : String)
  | missingOperator (token : String)
  | severalBases (text : String)
  | orphanLocal (name : String)
  | badData (text : String)
  | baseNotAtEdge
  | negatedBase
  | directOffset (name : String)
  | illegalSpecial (name : String)
  | wrongSlot (name : String)
  | undefinedSymbol (name : String)
  | noScope (name : String)
  | redefined (name : String)
  | reservedSymbol (name : String)
  | emptyImage
  | wordOverflow (value : Int)
  | byteOverflow (value : Int)
  | addressOverflow (address : Nat)
  deriving DecidableEq, Repr

namespace AsmError

/-- The kind of an error. -/
def kind : AsmError → ErrorKind
  | badToken _ | redundantLabel _ | reservedLabel _ | operandCount _ _ _ | emptyOperand
  | unbalancedBrackets _ | reservedBrace _ | unknownTerm _ | badLiteral _ | missingOperator _
  | severalBases _ | orphanLocal _ | badData _ => .parse
  | baseNotAtEdge | negatedBase | directOffset _ | illegalSpecial _ | wrongSlot _ => .eval
  | undefinedSymbol _ | noScope _ | redefined _ | reservedSymbol _ | emptyImage => .link
  | wordOverflow _ | byteOverflow _ | addressOverflow _ => .encode

/-- A name or a piece of source in backquotes. -/
def quoted (text : String) : String :=
  "`" ++ text ++ "`"

/-- The text of an error. -/
def message : AsmError → String
  | badToken token => "Bad token: " ++ quoted token
  | redundantLabel name => "Redundant label definition: " ++ quoted name
  | reservedLabel name => "Label " ++ quoted name ++ " is spelled like a register or special value"
  | operandCount mnemonic expected found =>
    quoted mnemonic ++ " takes " ++ Numeral.decimal expected ++ " operand(s), got " ++
      Numeral.decimal found
  | emptyOperand => "Empty parameter"
  | unbalancedBrackets text => "Unbalanced brackets in " ++ quoted text
  | reservedBrace text => "Braces are reserved for macros: " ++ quoted text
  | unknownTerm text => "Unrecognized token in parameter: " ++ quoted text
  | badLiteral token => "Malformed numeric literal: " ++ quoted token
  | missingOperator token => "Missing operator before " ++ quoted token
  | severalBases text => "More than one register or special value in " ++ quoted text
  | orphanLocal name => "Local label " ++ quoted name ++ " has no enclosing global label"
  | badData text => "Malformed data: " ++ quoted text
  | baseNotAtEdge => "Register or special value must be the first or last term"
  | negatedBase => "Register or special value cannot be negated"
  | directOffset name => quoted name ++ " cannot take an offset without indirection"
  | illegalSpecial name => quoted name ++ " cannot be used with indirection or an offset"
  | wrongSlot name => quoted name ++ " is not allowed in this operand position"
  | undefinedSymbol name => "Undefined symbol: " ++ quoted name
  | noScope name => "Cannot locate local symbol " ++ quoted name ++ " without a global scope"
  | redefined name => "Symbol redefined: " ++ quoted name
  | reservedSymbol name => quoted name ++ " is reserved by the linker"
  | emptyImage => "Nothing to assemble"
  | wordOverflow value => "Value " ++ Numeral.signed value ++ " does not fit in a 16-bit word"
  | byteOverflow value => "Value " ++ Numeral.signed value ++ " does not fit in a byte"
  | addressOverflow address =>
    "Address 0x" ++ Numeral.upperHex address ++ " is outside the 16-bit address space"

end AsmError

/-- A file and a line in it, as it is shown: lines are counted from one. -/
def shownPlace (file : String) (line : Nat) : String :=
  file ++ ":" ++ Numeral.decimal (line + 1)

/-- An error with the source line it is about.  Lines are counted from zero. -/
structure LocatedError where
  error : AsmError
  file : String
  line : Nat
  text : String
  deriving DecidableEq, Repr

/-- The text of an error, followed by its place. -/
def LocatedError.message (e : LocatedError) : String :=
  e.error.message ++ " (" ++ shownPlace e.file e.line ++ ")"

/-- A question without an answer. -/
inductive Fault where
  /-- A symbol number that the store does not hold. -/
  | missingSymbol
  /-- A line number that the file does not have. -/
  | missingLine
  /-- A sum or a negation that leaves the width of its numbers. -/
  | overflow
  deriving DecidableEq, Repr

/-- Why a computation stops: an error, which is reported, or a fault, which ends the run. -/
inductive Stop (ε : Type) where
  | error (e : ε)
  | fault (f : Fault)
  deriving DecidableEq, Repr

/-- Change the error and keep a fault. -/
def Stop.mapError {ε δ : Type} (f : ε → δ) : Stop ε → Stop δ
  | error e => error (f e)
  | fault e => fault e

/-- The value, or the fault `f` if there is none. -/
def orFault {ε α : Type} (f : Fault) : Option α → Except (Stop ε) α
  | some a => .ok a
  | none => .error (.fault f)

end Dcpu16

import Dcpu16.Isa.Opcode
import Dcpu16.Source.Directive
import Dcpu16.Source.Expr.Parser
import Dcpu16.Source.Expr.Printer

/-! Statements: a source line is an optional label, then an instruction, a directive or nothing.
A label is written `:name` or `name:`; one that starts with a dot is local to the label above. -/

namespace Dcpu16

open Text

/-- A label. -/
structure Label where
  name : String
  deriving DecidableEq, Repr

namespace Label

/-- Does the name of the label start with a dot? -/
def isLocal (label : Label) : Bool :=
  label.name.toList.head? = some '.'

/-- A character of a label that is no digit. -/
def isHead (c : Char) : Bool :=
  c.isAlpha || c = '_' || c = '.'

/-- Is the text the name of a label?  Digits may not come first. -/
def isName : List Char → Bool
  | [] => false
  | c :: cs => isHead c && cs.all fun d => isHead d || d.isDigit

/-- The label that a token stands for.  With a colon at both ends it is none. -/
def ofToken? (token : List Char) : Option Label :=
  let name? := match dropHead? ':' token with
    | some name => some name
    | none => dropLast? ':' token
  (name?.filter isName).map fun name => ⟨String.ofList name⟩

/-- Is the label spelled like a register or a special value? -/
def isReserved (label : Label) : Bool :=
  (Register.ofName? label.name).isSome || (SpecialValue.ofName? label.name).isSome

end Label

/-- What a statement says besides its label. -/
inductive Body where
  | empty
  | instruction (op : Opcode) (operands : List Expr)
  | directive (d : Directive) (rest : String)
  | unknown (token : String)
  deriving DecidableEq, Repr

namespace Body

/-- Read the operands of an operation. -/
def readOperands (op : Opcode) (rest : List Char) : Except AsmError Body := do
  let operands ← if rest.isEmpty then pure [] else (rest.splitOn ',').mapM Expr.parse
  if operands.length = op.arity then return instruction op operands
  else .error (.operandCount op.name op.arity operands.length)

/-- Read a body from its first token and the rest of the line. -/
def read (token rest : List Char) : Except AsmError Body :=
  let text := String.ofList token
  match Opcode.ofName? text, Directive.ofName? text with
  | some op, _ => readOperands op rest
  | none, some d => .ok (directive d (String.ofList rest))
  | none, none =>
    if Directive.isIgnored text then .ok empty
    else if token.head? = some '.' then .ok (unknown text)
    else .error (.badToken text)

/-- The text of an operation and its operands. -/
def renderInstruction (op : Opcode) (operands : List Expr) : String :=
  op.name ++ " " ++ ", ".intercalate (operands.map Expr.render)

/-- The text of a body; an empty body has none. -/
def render? : Body → Option String
  | empty => none
  | instruction op operands => some (renderInstruction op operands)
  | directive d rest => some (if rest.isEmpty then d.name else d.name ++ " " ++ rest)
  | unknown token => some token

end Body

/-- A source line. -/
structure Statement where
  label : Option Label
  body : Body
  deriving DecidableEq, Repr

namespace Statement

/-- The first token of a text and the rest, without white space around it. -/
def firstToken (text : List Char) : List Char × List Char :=
  let (token, rest) := cutAt ' ' text
  (token, trim rest)

/-- Read what follows a label. -/
def parseLabelled (label : Label) (rest : List Char) : Except AsmError Statement :=
  if rest.isEmpty then .ok ⟨some label, .empty⟩
  else
    let (token, rest) := firstToken rest
    match Label.ofToken? token with
    | some second => .error (.redundantLabel second.name)
    | none => (Body.read token rest).map fun body => ⟨some label, body⟩

/-- Read a tidy line. -/
def parse (line : List Char) : Except AsmError Statement :=
  let text := trim line
  if text.isEmpty then .ok ⟨none, .empty⟩
  else
    let (token, rest) := firstToken text
    match Label.ofToken? token with
    | some label =>
      if label.isReserved then .error (.reservedLabel label.name) else parseLabelled label rest
    | none => (Body.read token rest).map fun body => ⟨none, body⟩

/-- Does the statement say nothing? -/
def isEmpty (s : Statement) : Bool :=
  s.label.isNone && s.body = .empty

/-- The warning that a statement asks for: a directive that is not known. -/
def warning? (s : Statement) : Option String :=
  match s.body with
  | .unknown token => some ("Unknown directive: " ++ AsmError.quoted token)
  | _ => none

/-- The names that a statement hides from other files, with blanks or commas between them. -/
def hiddenNames (s : Statement) : List String :=
  match s.body with
  | .directive d rest =>
    if d.isVisibility then
      ((rest.toList.splitOnP fun c => c = ' ' || c = ',').filter fun name => !name.isEmpty).map
        String.ofList
    else []
  | _ => []

/-- The text of a statement, the label in front of the body. -/
def render (s : Statement) : String :=
  match s.label, s.body.render? with
  | some label, some body => ":" ++ label.name ++ " " ++ body
  | some label, none => ":" ++ label.name
  | none, some body => body
  | none, none => ""

end Statement

end Dcpu16

import Dcpu16.Source.Expr.Basic

/-! Reading operand expressions.  The text is cut at white space, signs and semicolons into signs
and runs of other characters; each run is one term, and every term but the first needs a sign in
front of it. -/

namespace Dcpu16

open Text

/-- A character of a symbol name that is no digit. -/
def isSymbolHead (c : Char) : Bool :=
  c.isAlpha || c = '_' || c = '.' || c = '$'

/-- Is the text a symbol name?  Digits may not come first. -/
def isSymbolName : List Char → Bool
  | [] => false
  | c :: cs => isSymbolHead c && cs.all fun d => isSymbolHead d || d.isDigit

/-- Read a literal: decimal, or hexadecimal after `0x`; it has to fit in a word. -/
def readLiteral (token : List Char) : Except AsmError Word :=
  let value? := match Numeral.afterHexMark? token with
    | some digits => Numeral.readNat? 16 digits
    | none => Numeral.readNat? 10 token
  match value?.filter (· < 0x10000) with
  | some n => .ok (UInt16.ofNat n)
  | none => .error (.badLiteral (String.ofList token))

/-- Read a term without its sign. -/
def Atom.read (token : List Char) : Except AsmError Atom :=
  if (token.head?.map Char.isDigit).getD false then (readLiteral token).map .literal
  else
    let text := String.ofList token
    match Register.ofName? text, SpecialValue.ofName? text with
    | some r, _ => .ok (.register r)
    | none, some v => .ok (.special v)
    | none, none => if isSymbolName token then .ok (.reference text) else .error (.unknownTerm text)

/-- A piece of an operand expression. -/
inductive Piece where
  | sign (s : Sign)
  | run (token : List Char)
  deriving DecidableEq, Repr

namespace Piece

/-- A character that ends a run. -/
def isSeparator (c : Char) : Bool :=
  isBlank c || c = '+' || c = '-' || c = ';'

/-- The sign that a separator stands for. -/
def ofSeparator (c : Char) : List Piece :=
  if c = '+' then [sign .plus] else if c = '-' then [sign .minus] else []

/-- A run, if it is not empty, in front of other pieces. -/
def consRun (token : List Char) (pieces : List Piece) : List Piece :=
  if token.isEmpty then pieces else run token :: pieces

/-- One more character in front of a run and the pieces after it. -/
def step (c : Char) (rest : List Char × List Piece) : List Char × List Piece :=
  if isSeparator c then ([], ofSeparator c ++ consRun rest.1 rest.2) else (c :: rest.1, rest.2)

/-- Cut a text into its signs and runs. -/
def cut (body : List Char) : List Piece :=
  let rest := body.foldr step ([], [])
  consRun rest.1 rest.2

end Piece

namespace Expr

/-- Read the terms of an expression.  The result has the sign that is left without a term. -/
def readTerms : (isFirst : Bool) → Option Sign → List Piece →
    Except AsmError (List Term × Option Sign)
  | _, sign, [] => .ok ([], sign)
  | isFirst, _, .sign s :: pieces => readTerms isFirst (some s) pieces
  | isFirst, sign, .run token :: pieces =>
    if sign.isNone && !isFirst then .error (.missingOperator (String.ofList token))
    else do
      let atom ← Atom.read token
      let (terms, left) ← readTerms false none pieces
      return (⟨sign, atom⟩ :: terms, left)

/-- The text inside brackets, if there are brackets, and whether there are.  A bracket at one end
only has no such reading. -/
def unbracket? : List Char → Option (List Char × Bool)
  | '[' :: rest => (dropLast? ']' rest).map fun inner => (inner, true)
  | cs => if cs.getLast? = some ']' then none else some (cs, false)

/-- Read the inside of an expression.  `text` is the whole of it. -/
def parseBody (text body : List Char) (indirect : Bool) : Except AsmError Expr :=
  if body.head? = some '\x7b' then .error (.reservedBrace (String.ofList text))
  else if body.isEmpty then .error .emptyOperand
  else do
    let (terms, left) ← readTerms true none (Piece.cut body)
    if left.isSome then .error (.unknownTerm (String.ofList body))
    else if 1 < (terms.filter fun t => t.atom.isBase).length then
      .error (.severalBases (String.ofList text))
    else return ⟨terms, indirect⟩

/-- Read an operand expression. -/
def parse (text : List Char) : Except AsmError Expr :=
  let text := trim text
  if text.isEmpty then .error .emptyOperand
  else
    match unbracket? text with
    | none => .error (.unbalancedBrackets (String.ofList text))
    | some (inner, indirect) =>
      if inner.any fun c => c = '[' || c = ']' then
        .error (.unbalancedBrackets (String.ofList text))
      else parseBody text (trim inner) indirect

end Expr

end Dcpu16

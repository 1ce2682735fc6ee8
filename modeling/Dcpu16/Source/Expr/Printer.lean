import Dcpu16.Source.Expr.Basic

/-! Writing operand expressions: literals in hexadecimal, names of registers and special values in
lower case, and a blank on both sides of a sign between two terms. -/

namespace Dcpu16

open Text

/-- The text of a term without its sign. -/
def Atom.render : Atom → String
  | literal value => "0x" ++ Numeral.hex value.toNat
  | register r => r.name
  | special v => v.name
  | reference name => name

namespace Term

/-- The text of the first term. -/
def renderFirst (t : Term) : String :=
  match t.sign with
  | some .minus => "-" ++ t.atom.render
  | some .plus => "+" ++ t.atom.render
  | none => t.atom.render

/-- The text of a term after another one. -/
def renderNext (t : Term) : String :=
  (if t.isNegative then " - " else " + ") ++ t.atom.render

end Term

namespace Expr

/-- The text of a chain of terms. -/
def renderTerms : List Term → String
  | [] => ""
  | t :: ts => t.renderFirst ++ String.join (ts.map Term.renderNext)

/-- The text of an operand expression. -/
def render (e : Expr) : String :=
  if e.indirect then "[" ++ renderTerms e.terms ++ "]" else renderTerms e.terms

end Expr

end Dcpu16

import Dcpu16.Error
import Dcpu16.Isa.Mode

/-! Operand expressions: signed terms, perhaps in brackets.  A term is a literal, a register, a
special value or a reference to a symbol; a register or special value is the base of the
expression. -/

namespace Dcpu16

open Text

/-- A sign in front of a term. -/
inductive Sign where
  | plus
  | minus
  deriving DecidableEq, Repr

/-- A term without its sign. -/
inductive Atom where
  | literal (value : Word)
  | register (r : Register)
  | special (v : SpecialValue)
  | reference (name : String)
  deriving DecidableEq, Repr

/-- Is it a register or a special value? -/
def Atom.isBase : Atom → Bool
  | register _ | special _ => true
  | literal _ | reference _ => false

/-- A term of an operand expression. -/
structure Term where
  sign : Option Sign
  atom : Atom
  deriving DecidableEq, Repr

namespace Term

/-- Does the term stand after a minus sign? -/
def isNegative (t : Term) : Bool :=
  t.sign = some .minus

/-- A number with the sign of the term. -/
def signed (t : Term) (v : Int) : Int :=
  if t.isNegative then -v else v

/-- The signed value of a literal term; other terms count as zero. -/
def literalValue (t : Term) : Int :=
  match t.atom with
  | .literal value => t.signed value.toNat
  | _ => 0

/-- The name that a term refers to. -/
def reference? (t : Term) : Option String :=
  match t.atom with
  | .reference name => some name
  | _ => none

end Term

/-- An operand expression. -/
structure Expr where
  terms : List Term
  /-- The expression stands in brackets. -/
  indirect : Bool
  deriving DecidableEq, Repr

namespace Expr

/-- The sum of the literal terms. -/
def literalSum (e : Expr) : Int :=
  e.terms.foldr (fun t sum => t.literalValue + sum) 0

/-- The smallest sum of literals that can be held. -/
def sumMin : Int := -0x80000000

/-- The largest sum of literals that can be held. -/
def sumMax : Int := 0x7FFFFFFF

/-- Do all sums that arise when the literals of `terms` are added to `sum`, from left to right, have
32 bits? -/
def sumsFitFrom : Int → List Term → Bool
  | _, [] => true
  | sum, t :: ts =>
    let next := sum + t.literalValue
    sumMin ≤ next && next ≤ sumMax && sumsFitFrom next ts

/-- Can the literals be added up in 32 bits? -/
def sumFits (e : Expr) : Bool :=
  sumsFitFrom 0 e.terms

/-- The sum of the literal terms, if they can be added up. -/
def checkedSum (e : Expr) : Except Fault Int :=
  if e.sumFits then .ok e.literalSum else .error .overflow

/-- The names that the expression refers to, from left to right. -/
def references (e : Expr) : List String :=
  e.terms.filterMap Term.reference?

/-- Does the expression refer to a symbol? -/
def hasReference (e : Expr) : Bool :=
  !e.references.isEmpty

/-- The base of the expression: its first register or special value. -/
def base? (e : Expr) : Option Atom :=
  (e.terms.map Term.atom).find? Atom.isBase

/-- Is there anything to add to a base? -/
def hasOffset (e : Expr) : Bool :=
  e.literalSum ≠ 0 || e.hasReference

/-- Does the operand take an extra word?  This is settled before any symbol has an address. -/
def needsWord (e : Expr) (slot : Slot) : Bool :=
  match e.base? with
  | some (.register _) | some (.special .sp) => e.indirect && e.hasOffset
  | some _ => false
  | none =>
    e.hasReference || e.indirect || slot = .destination ||
      !(-1 ≤ e.literalSum && e.literalSum ≤ 30)

/-- The same expression with other names for the symbols it refers to. -/
def mapReferences {m : Type → Type} [Monad m] (f : String → m String) (e : Expr) : m Expr := do
  let terms ← e.terms.mapM fun t =>
    match t.atom with
    | .reference name => do return { t with atom := .reference (← f name) }
    | _ => pure t
  return { e with terms }

end Expr

end Dcpu16

import Dcpu16.Isa.Instruction
import Dcpu16.Source.Data
import Dcpu16.Source.Expr.Basic
import Dcpu16.Symbol.Program

/-! Evaluating operand expressions: each becomes an addressing mode with its extra word, once the
symbols it refers to have addresses. -/

namespace Dcpu16

/-- Where an expression is evaluated. -/
structure Scope where
  program : Program
  file : String
  /-- The global symbol that local names belong to. -/
  global : Option SymbolId

namespace Scope

/-- The symbol that a name refers to. -/
def find (scope : Scope) (name : String) : Except (Stop AsmError) SymbolId := do
  match ← scope.program.resolve scope.file name scope.global with
  | some id => return id
  | none => .error (.error (.undefinedSymbol name))

/-- The address of a symbol.  One that is bound to a record and has no address lies behind the last
word of memory. -/
def addressOf (scope : Scope) (name : String) (id : SymbolId) : Except (Stop AsmError) Word := do
  let sym ← orFault .missingSymbol (scope.program.symbols.get? id)
  match sym.address, sym.definition with
  | some address, _ => return address
  | none, some _ => .error (.error (.addressOverflow 0x10000))
  | none, none => .error (.error (.undefinedSymbol name))

/-- The address that a name refers to. -/
def lookup (scope : Scope) (name : String) : Except (Stop AsmError) Word := do
  scope.addressOf name (← scope.find name)

end Scope

namespace Expr

/-- A base is the first or the last term, and without a minus sign. -/
def checkBase (e : Expr) : Except AsmError Unit :=
  match e.terms.findIdx? fun t => t.atom.isBase with
  | none => .ok ()
  | some i =>
    if i ≠ 0 ∧ i ≠ e.terms.length - 1 then .error .baseNotAtEdge
    else if (e.terms[i]?.map Term.isNegative).getD false then .error .negatedBase
    else .ok ()

/-- The value of a term: the address of a reference, the value of a literal, and zero for a base. -/
def termValue (scope : Scope) (t : Term) : Except (Stop AsmError) Int :=
  match t.atom with
  | .literal value => .ok (t.signed value.toNat)
  | .reference name => (scope.lookup name).map fun address => t.signed address.toNat
  | _ => .ok 0

/-- The sum of terms, which are evaluated from left to right. -/
def sumTerms (scope : Scope) : List Term → Except (Stop AsmError) Int
  | [] => .ok 0
  | t :: ts => do
    let value ← termValue scope t
    let rest ← sumTerms scope ts
    return value + rest

/-- The sum of the terms of an expression. -/
def value (e : Expr) (scope : Scope) : Except (Stop AsmError) Int :=
  sumTerms scope e.terms

/-- The operand for an expression with a given sum. -/
def toOperand (e : Expr) (slot : Slot) (value : Int) : Except AsmError Operand :=
  let withWord (mode : Mode) : Except AsmError Operand :=
    (Word.store value).map fun w => ⟨mode, some w⟩
  match e.base? with
  | some (.register r) =>
    match e.indirect, e.hasOffset with
    | false, true => .error (.directOffset r.name)
    | false, false => .ok ⟨.register r, none⟩
    | true, false => .ok ⟨.atRegister r, none⟩
    | true, true => withWord (.atRegisterPlus r)
  | some (.special .sp) =>
    match e.indirect, e.hasOffset with
    | false, true => .error (.directOffset SpecialValue.sp.name)
    | false, false => .ok ⟨.sp, none⟩
    | true, false => .ok ⟨.peek, none⟩
    | true, true => withWord .pick
  | some (.special v) =>
    if e.indirect || e.hasOffset then .error (.illegalSpecial v.name)
    else
      match v.mode? slot with
      | some mode => .ok ⟨mode, none⟩
      | none => .error (.wrongSlot v.name)
  | _ =>
    if e.indirect then withWord .atNext
    else if e.hasReference || slot = .destination then withWord .next
    else
      match Mode.ofShort? value with
      | some mode => .ok ⟨mode, none⟩
      | none => withWord .next

/-- Evaluate an expression as an operand. -/
def eval (e : Expr) (slot : Slot) (scope : Scope) : Except (Stop AsmError) Operand := do
  e.checkBase.mapError Stop.error
  let value ← e.value scope
  if e.sumFits then (e.toOperand slot value).mapError Stop.error else .error (.fault .overflow)

/-- The symbols that looking up `names` in turn refers to.  It ends with the first name that has no
address. -/
def lookedUp (scope : Scope) : List String → List SymbolId
  | [] => []
  | name :: names =>
    match scope.find name with
    | .error _ => []
    | .ok id =>
      match scope.addressOf name id with
      | .error _ => [id]
      | .ok _ => id :: lookedUp scope names

/-- The symbols that evaluating an expression refers to. -/
def touched (e : Expr) (scope : Scope) : List SymbolId :=
  match e.checkBase with
  | .error _ => []
  | .ok _ => lookedUp scope e.references

end Expr

end Dcpu16

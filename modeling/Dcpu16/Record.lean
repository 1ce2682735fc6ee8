import Dcpu16.Evaluation
import Dcpu16.Source.Statement

/-! Records: the pieces of an image in their order.  A record is a machine instruction, data, or a
mark that takes no room; it knows the source line it comes from and the symbols that stand for its
address. -/

namespace Dcpu16

/-- A machine instruction as it is written, the destination first. -/
structure Operation where
  op : Opcode
  operands : List Expr
  deriving DecidableEq, Repr

namespace Operation

/-- The slots of the operands, in the order in which they are written. -/
def slots (o : Operation) : List Slot :=
  match o.op with
  | .basic _ => [.destination, .source]
  | .extended _ => [.source]

/-- The operands with their slots. -/
def placed (o : Operation) : List (Slot × Expr) :=
  o.slots.zip o.operands

/-- The number of words. -/
def size (o : Operation) : Nat :=
  1 + (o.placed.filter fun p => p.2.needsWord p.1).length

/-- Can the literals of all operands be added up? -/
def sumsFit (o : Operation) : Bool :=
  o.placed.all fun p => p.2.sumFits

/-- The machine instruction. -/
def assemble (o : Operation) (scope : Scope) : Except (Stop AsmError) Instruction := do
  let operands ← o.placed.mapM fun p => return (p.1, ← p.2.eval p.1 scope)
  match operands.lookup Slot.source with
  | some source => return ⟨o.op, operands.lookup Slot.destination, source⟩
  | none => .error (.error (.operandCount o.op.name o.op.arity 0))

/-- The symbols that evaluating operands in turn refers to.  It ends with the first operand that
cannot be evaluated. -/
def touchedBy (scope : Scope) : List (Slot × Expr) → List SymbolId
  | [] => []
  | (slot, e) :: rest =>
    match e.eval slot scope with
    | .error _ => e.touched scope
    | .ok _ => e.touched scope ++ touchedBy scope rest

/-- The text of the instruction. -/
def render (o : Operation) : String :=
  Body.renderInstruction o.op o.operands

end Operation

/-- What a record stands for. -/
inductive Content where
  | operation (o : Operation)
  | data (words : List Word)
  /-- A position without words. -/
  | mark
  deriving DecidableEq, Repr

namespace Content

/-- The number of words. -/
def size : Content → Nat
  | operation o => o.size
  | data words => words.length
  | mark => 0

/-- The number of words, if the literals of all operands can be added up. -/
def measure : Content → Except Fault Nat
  | operation o => if o.sumsFit then .ok o.size else .error .overflow
  | data words => .ok words.length
  | mark => .ok 0

/-- The words. -/
def words (c : Content) (scope : Scope) : Except (Stop AsmError) (List Word) :=
  match c with
  | operation o => (o.assemble scope).map Instruction.encode
  | data words => .ok words
  | mark => .ok []

/-- The symbols that making the words refers to. -/
def touched (c : Content) (scope : Scope) : List SymbolId :=
  match c with
  | operation o => Operation.touchedBy scope o.placed
  | data _ | mark => []

/-- The text; a mark has none. -/
def render : Content → String
  | operation o => o.render
  | data words => Data.render words
  | mark => ""

end Content

/-- A piece of an image. -/
structure Record where
  file : String
  line : Nat
  text : String
  /-- The nearest label above that is not local. -/
  scope : Option SymbolId
  content : Content
  /-- The symbols that stand for the address of the record. -/
  defined : List SymbolId := []
  address : Option Word := none
  words : Option (List Word) := none
  deriving DecidableEq, Repr

namespace Record

/-- The number of words. -/
def size (r : Record) : Nat := r.content.size

/-- The words, none if they have not been made. -/
def wordList (r : Record) : List Word := r.words.getD []

/-- An error at the record. -/
def locate (r : Record) (e : AsmError) : LocatedError :=
  ⟨e, r.file, r.line, r.text⟩

/-- Where the operands of the record are evaluated. -/
def scopeIn (r : Record) (program : Program) : Scope :=
  ⟨program, r.file, r.scope⟩

end Record

end Dcpu16

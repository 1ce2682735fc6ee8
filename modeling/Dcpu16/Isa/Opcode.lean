import Dcpu16.Isa.Word
import Dcpu16.Text.Cut

/-! The operations of the DCPU-16.  A basic operation takes two operands and has its code in the
opcode field of the first word.  An extended operation takes one operand; its opcode field is zero
and its code stands in the `b` field. -/

namespace Dcpu16

/-- An operation with two operands. -/
inductive BasicOp where
  | set | add | sub | mul | mli | div | dvi | mod | mdi | and | bor | xor | shr | asr | shl | ifb
  | ifc | ife | ifn | ifg | ifa | ifl | ifu | adx | sbx | sti | std
  deriving DecidableEq, Repr

namespace BasicOp

/-- All basic operations, by code. -/
def all : List BasicOp :=
  [.set, .add, .sub, .mul, .mli, .div, .dvi, .mod, .mdi, .and, .bor, .xor, .shr, .asr, .shl,
    .ifb, .ifc, .ife, .ifn, .ifg, .ifa, .ifl, .ifu, .adx, .sbx, .sti, .std]

/-- The code in the opcode field. -/
def code : BasicOp → Nat
  | set => 0x01
  | add => 0x02
  | sub => 0x03
  | mul => 0x04
  | mli => 0x05
  | div => 0x06
  | dvi => 0x07
  | mod => 0x08
  | mdi => 0x09
  | and => 0x0a
  | bor => 0x0b
  | xor => 0x0c
  | shr => 0x0d
  | asr => 0x0e
  | shl => 0x0f
  | ifb => 0x10
  | ifc => 0x11
  | ife => 0x12
  | ifn => 0x13
  | ifg => 0x14
  | ifa => 0x15
  | ifl => 0x16
  | ifu => 0x17
  | adx => 0x1a
  | sbx => 0x1b
  | sti => 0x1e
  | std => 0x1f

/-- The mnemonic, in lower case. -/
def name : BasicOp → String
  | set => "set"
  | add => "add"
  | sub => "sub"
  | mul => "mul"
  | mli => "mli"
  | div => "div"
  | dvi => "dvi"
  | mod => "mod"
  | mdi => "mdi"
  | and => "and"
  | bor => "bor"
  | xor => "xor"
  | shr => "shr"
  | asr => "asr"
  | shl => "shl"
  | ifb => "ifb"
  | ifc => "ifc"
  | ife => "ife"
  | ifn => "ifn"
  | ifg => "ifg"
  | ifa => "ifa"
  | ifl => "ifl"
  | ifu => "ifu"
  | adx => "adx"
  | sbx => "sbx"
  | sti => "sti"
  | std => "std"

/-- The operation with a given code. -/
def ofCode? (n : Nat) : Option BasicOp :=
  all.find? fun op => op.code == n

/-- The operation with a given mnemonic, in any case. -/
def ofName? (s : String) : Option BasicOp :=
  all.find? fun op => Text.isNamed op.name s

end BasicOp

/-- An operation with one operand. -/
inductive ExtendedOp where
  | jsr | int | iag | ias | rfi | iaq | hwn | hwq | hwi
  deriving DecidableEq, Repr

namespace ExtendedOp

/-- All extended operations, by code. -/
def all : List ExtendedOp :=
  [.jsr, .int, .iag, .ias, .rfi, .iaq, .hwn, .hwq, .hwi]

/-- The code in the `b` field, below a zero opcode. -/
def code : ExtendedOp → Nat
  | jsr => 0x01
  | int => 0x08
  | iag => 0x09
  | ias => 0x0a
  | rfi => 0x0b
  | iaq => 0x0c
  | hwn => 0x10
  | hwq => 0x11
  | hwi => 0x12

/-- The mnemonic, in lower case. -/
def name : ExtendedOp → String
  | jsr => "jsr"
  | int => "int"
  | iag => "iag"
  | ias => "ias"
  | rfi => "rfi"
  | iaq => "iaq"
  | hwn => "hwn"
  | hwq => "hwq"
  | hwi => "hwi"

/-- The operation with a given code. -/
def ofCode? (n : Nat) : Option ExtendedOp :=
  all.find? fun op => op.code == n

/-- The operation with a given mnemonic, in any case. -/
def ofName? (s : String) : Option ExtendedOp :=
  all.find? fun op => Text.isNamed op.name s

end ExtendedOp

/-- An operation. -/
inductive Opcode where
  | basic (op : BasicOp)
  | extended (op : ExtendedOp)
  deriving DecidableEq, Repr

namespace Opcode

/-- The mnemonic, in lower case. -/
def name : Opcode → String
  | basic op => op.name
  | extended op => op.name

/-- The number of operands written in source. -/
def arity : Opcode → Nat
  | basic _ => 2
  | extended _ => 1

/-- The operation with a given mnemonic, in any case. -/
def ofName? (s : String) : Option Opcode :=
  match BasicOp.ofName? s with
  | some op => some (basic op)
  | none => (ExtendedOp.ofName? s).map extended

/-- The first word of an instruction.  An extended operation has no `b` operand. -/
def toWord (op : Opcode) (b a : Nat) : Word :=
  match op with
  | basic op => Word.pack op.code b a
  | extended op => Word.pack 0 op.code a

/-- The operation of a first word, with the operand fields `b` and `a`. -/
def ofWord? (w : Word) : Option (Opcode × Nat × Nat) :=
  if w.opcodeField = 0 then (ExtendedOp.ofCode? w.bField).map fun op => (extended op, 0, w.aField)
  else (BasicOp.ofCode? w.opcodeField).map fun op => (basic op, w.bField, w.aField)

end Opcode

end Dcpu16

import Dcpu16.Isa.Register
import Dcpu16.Isa.Word
import Dcpu16.Text.Numeral
import Dcpu16.Text.Styled

/-! Addressing modes: how an operand field of the first word is read. -/

namespace Dcpu16

open Text

/-- The place of an operand: the source has the six bits of the `a` field, the destination the five
bits of the `b` field.  An instruction with one operand has a source only. -/
inductive Slot where
  | source
  | destination
  deriving DecidableEq, Repr

/-- An addressing mode. -/
inductive Mode where
  /-- A register. -/
  | register (r : Register)
  /-- The word at the address in a register. -/
  | atRegister (r : Register)
  /-- The word at the address in a register plus the next word. -/
  | atRegisterPlus (r : Register)
  | push
  | pop
  | peek
  /-- The word at the stack pointer plus the next word. -/
  | pick
  | sp
  | pc
  | ex
  /-- The word at the address in the next word. -/
  | atNext
  /-- The next word. -/
  | next
  /-- The literal `n - 1`, in the field itself. -/
  | short (n : Fin 32)
  deriving DecidableEq, Repr

namespace Mode

/-- The mode of an operand field.  Short literals are for a source; `0x18` pops as a source and
pushes as a destination. -/
def ofBits? (bits : Nat) (slot : Slot) : Option Mode :=
  if bits < 0x08 then some (register (.ofCode bits))
  else if bits < 0x10 then some (atRegister (.ofCode bits))
  else if bits < 0x18 then some (atRegisterPlus (.ofCode bits))
  else if h : 0x20 ≤ bits ∧ bits < 0x40 then
    match slot with
    | .source => some (short ⟨bits - 0x20, by omega⟩)
    | .destination => none
  else
    match bits with
    | 0x18 =>
      match slot with
      | .source => some pop
      | .destination => some push
    | 0x19 => some peek
    | 0x1a => some pick
    | 0x1b => some sp
    | 0x1c => some pc
    | 0x1d => some ex
    | 0x1e => some atNext
    | 0x1f => some next
    | _ => none

/-- The operand field of a mode. -/
def bits : Mode → Nat
  | register r => r.code
  | atRegister r => 0x08 + r.code
  | atRegisterPlus r => 0x10 + r.code
  | push | pop => 0x18
  | peek => 0x19
  | pick => 0x1a
  | sp => 0x1b
  | pc => 0x1c
  | ex => 0x1d
  | atNext => 0x1e
  | next => 0x1f
  | short n => 0x20 + n.val

/-- Does the operand take an extra word? -/
def needsWord : Mode → Bool
  | atRegisterPlus _ | pick | atNext | next => true
  | _ => false

/-- The value of a short literal. -/
def shortValue (n : Fin 32) : Int := (n.val : Int) - 1

/-- The short literal for a value, if there is one. -/
def ofShort? (v : Int) : Option Mode :=
  if h : -1 ≤ v ∧ v ≤ 30 then some (short ⟨(v + 1).toNat, by omega⟩) else none

/-- Text in brackets. -/
def bracketed (inner : Styled) : Styled :=
  Styled.bare "[" ++ inner ++ Styled.bare "]"

/-- The operand as it is written in source.  A missing extra word is written as zero. -/
def styled (mode : Mode) (word : Option Word) : Styled :=
  let literal := Styled.inStyle .yellow ("0x" ++ Numeral.fourHex (word.getD 0).toNat)
  match mode with
  | register r => Styled.inStyle .blue r.name
  | atRegister r => bracketed (Styled.inStyle .blue r.name)
  | atRegisterPlus r => bracketed (Styled.inStyle .blue r.name ++ Styled.bare " + " ++ literal)
  | push => Styled.inStyle .magenta "push"
  | pop => Styled.inStyle .magenta "pop"
  | peek => Styled.inStyle .magenta "peek"
  | pick => bracketed (Styled.inStyle .magenta "sp" ++ Styled.bare " + " ++ literal)
  | sp => Styled.inStyle .magenta "sp"
  | pc => Styled.inStyle .magenta "pc"
  | ex => Styled.inStyle .magenta "ex"
  | atNext => bracketed literal
  | next => literal
  | short n => Styled.inStyle .yellow (Numeral.signed (shortValue n))

end Mode

namespace SpecialValue

/-- The mode of a bare special value, where the slot allows it: `push` is a destination only and
`pop` a source only. -/
def mode? : SpecialValue → Slot → Option Mode
  | push, .destination => some .push
  | push, .source => none
  | pop, .source => some .pop
  | pop, .destination => none
  | peek, _ => some .peek
  | sp, _ => some .sp
  | pc, _ => some .pc
  | ex, _ => some .ex

end SpecialValue

end Dcpu16

import Dcpu16.Isa.Mode
import Dcpu16.Isa.Opcode

/-! Machine instructions: their words and their text.  The words are the first word, then the extra
word of the source, then that of the destination. -/

namespace Dcpu16

open Text

/-- An operand of an instruction, with its extra word. -/
structure Operand where
  mode : Mode
  word : Option Word
  deriving DecidableEq, Repr

namespace Operand

/-- The operand with a given mode whose extra word, if it needs one, is the next of `words`. -/
def read? (mode : Mode) (words : List Word) : Option (Operand × List Word) :=
  if mode.needsWord then
    match words with
    | [] => none
    | w :: rest => some (⟨mode, some w⟩, rest)
  else some (⟨mode, none⟩, words)

/-- The operand as it is written in source. -/
def styled (operand : Operand) : Styled :=
  operand.mode.styled operand.word

end Operand

/-- A machine instruction. -/
structure Instruction where
  op : Opcode
  destination : Option Operand
  source : Operand
  deriving DecidableEq, Repr

namespace Instruction

/-- The instruction at the front of `words`, and the words after it. -/
def decode? : List Word → Option (Instruction × List Word)
  | [] => none
  | first :: rest => do
    let (op, b, a) ← Opcode.ofWord? first
    let (source, rest) ← Operand.read? (← Mode.ofBits? a .source) rest
    match op with
    | .basic _ =>
      let (destination, rest) ← Operand.read? (← Mode.ofBits? b .destination) rest
      return (⟨op, some destination, source⟩, rest)
    | .extended _ => return (⟨op, none, source⟩, rest)

/-- The words of an instruction: every extra word that is present is written. -/
def encode (i : Instruction) : List Word :=
  let b := match i.destination with
    | some operand => operand.mode.bits
    | none => 0
  i.op.toWord b i.source.mode.bits ::
    (i.source.word.toList ++ (i.destination.bind Operand.word).toList)

/-- The number of words of an instruction. -/
def size (i : Instruction) : Nat := i.encode.length

/-- The instructions at the front of `words`, at most `fuel` of them, and the words after them. -/
def decodeUpTo : Nat → List Word → List Instruction × List Word
  | 0, words => ([], words)
  | fuel + 1, words =>
    match decode? words with
    | none => ([], words)
    | some (i, rest) =>
      let (is, left) := decodeUpTo fuel rest
      (i :: is, left)

/-- As many instructions as the front of `words` holds, and the words after them.  Each instruction
takes a word at least, so there are no more of them than words. -/
def decodeAll (words : List Word) : List Instruction × List Word :=
  decodeUpTo words.length words

/-- The instruction as it is written in source, the destination first. -/
def styled (i : Instruction) : Styled :=
  let operands := match i.destination with
    | some operand => operand.styled ++ Styled.bare ", " ++ i.source.styled
    | none => i.source.styled
  Styled.inStyle .red (padRight 4 i.op.name) ++ operands

end Instruction

end Dcpu16

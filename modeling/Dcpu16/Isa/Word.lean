/-! Words of sixteen bits, and the three fields of an instruction's first word: five bits of
opcode, then five bits `b` and six bits `a`. -/

namespace Dcpu16

/-- A word of memory. -/
abbrev Word := UInt16

namespace Word

/-- The first word of an instruction.  Each field keeps its low bits only. -/
def pack (opcode b a : Nat) : Word :=
  UInt16.ofNat (opcode % 32 + 32 * (b % 32) + 1024 * (a % 64))

/-- The opcode field. -/
def opcodeField (w : Word) : Nat := w.toNat % 32

/-- The `b` field. -/
def bField (w : Word) : Nat := w.toNat / 32 % 32

/-- The `a` field. -/
def aField (w : Word) : Nat := w.toNat / 1024 % 64

/-- The word congruent to `v` modulo `2^16`. -/
def ofInt (v : Int) : Word :=
  UInt16.ofNat (v % 0x10000).toNat

/-- The two bytes of a word, the high byte first. -/
def bytes (w : Word) : List UInt8 :=
  [UInt8.ofNat (w.toNat / 256), UInt8.ofNat (w.toNat % 256)]

end Word

end Dcpu16

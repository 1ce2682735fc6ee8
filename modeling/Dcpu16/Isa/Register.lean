import Dcpu16.Text.Cut

/-! The general registers, and the special values that an operand can name in place of one. -/

namespace Dcpu16

/-- A general register. -/
inductive Register where
  | a | b | c | x | y | z | i | j
  deriving DecidableEq, Repr

namespace Register

/-- All registers, by code. -/
def all : List Register := [.a, .b, .c, .x, .y, .z, .i, .j]

/-- The number of the register. -/
def code : Register → Nat
  | a => 0
  | b => 1
  | c => 2
  | x => 3
  | y => 4
  | z => 5
  | i => 6
  | j => 7

/-- The register whose number is `n` modulo eight. -/
def ofCode (n : Nat) : Register :=
  match n % 8 with
  | 0 => a
  | 1 => b
  | 2 => c
  | 3 => x
  | 4 => y
  | 5 => z
  | 6 => i
  | _ => j

/-- The name of the register, in lower case. -/
def name : Register → String
  | a => "a"
  | b => "b"
  | c => "c"
  | x => "x"
  | y => "y"
  | z => "z"
  | i => "i"
  | j => "j"

/-- The register with a given name, in any case. -/
def ofName? (s : String) : Option Register :=
  all.find? fun r => Text.isNamed r.name s

end Register

/-- A special value: a stack access, the stack pointer, the program counter or the overflow. -/
inductive SpecialValue where
  | pop | push | peek | sp | pc | ex
  deriving DecidableEq, Repr

namespace SpecialValue

/-- All special values. -/
def all : List SpecialValue := [.pop, .push, .peek, .sp, .pc, .ex]

/-- The name of the special value, in lower case. -/
def name : SpecialValue → String
  | pop => "pop"
  | push => "push"
  | peek => "peek"
  | sp => "sp"
  | pc => "pc"
  | ex => "ex"

/-- The special value with a given name, in any case. -/
def ofName? (s : String) : Option SpecialValue :=
  all.find? fun v => Text.isNamed v.name s

end SpecialValue

end Dcpu16

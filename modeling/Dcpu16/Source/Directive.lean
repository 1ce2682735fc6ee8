import Dcpu16.Text.Cut

/-! Directives: statements that are no machine instruction. -/

namespace Dcpu16

open Text

/-- A directive. -/
inductive Directive where
  | privateNames | hiddenNames
  | byte | short | word | uint16T | uint16 | string | asciz
  | data | text | func | endfunc
  deriving DecidableEq, Repr

namespace Directive

/-- All directives. -/
def all : List Directive :=
  [.privateNames, .hiddenNames, .byte, .short, .word, .uint16T, .uint16, .string, .asciz, .data,
    .text, .func, .endfunc]

/-- The name of the directive, in lower case. -/
def name : Directive → String
  | privateNames => ".private"
  | hiddenNames => ".hidden"
  | byte => ".byte"
  | short => ".short"
  | word => ".word"
  | uint16T => ".uint16_t"
  | uint16 => ".uint16"
  | string => ".string"
  | asciz => ".asciz"
  | data => ".data"
  | text => ".text"
  | func => ".func"
  | endfunc => ".endfunc"

/-- The directive with a given name, in any case. -/
def ofName? (s : String) : Option Directive :=
  all.find? fun d => isNamed d.name s

/-- Does the directive hide names from other files? -/
def isVisibility : Directive → Bool
  | privateNames | hiddenNames => true
  | _ => false

/-- Does the directive stand for words of the image? -/
def isData : Directive → Bool
  | byte | short | word | uint16T | uint16 | string | asciz => true
  | _ => false

/-- Directives of other assemblers that are read and have no effect. -/
def ignoredNames : List String :=
  [".globl", ".global", ".extern", ".align", ".section", ".zero"]

/-- Is the text a directive without effect, in any case? -/
def isIgnored (s : String) : Bool :=
  ignoredNames.any fun name => isNamed name s

end Directive

end Dcpu16

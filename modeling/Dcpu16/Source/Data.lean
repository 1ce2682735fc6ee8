import Dcpu16.Error
import Dcpu16.Isa.Word
import Dcpu16.Source.Directive
import Dcpu16.Text.Numeral

/-! Data directives: lists of numbers, one word each, and quoted strings, one word for each byte of
their UTF-8 form. -/

namespace Dcpu16

open Text

/-- A value as a word: from `-0x8000` up to `0xFFFF`, modulo `2^16`. -/
def Word.store (v : Int) : Except AsmError Word :=
  if -0x8000 ≤ v ∧ v ≤ 0xFFFF then .ok (Word.ofInt v) else .error (.wordOverflow v)

/-- A value as a byte: from `-0x80` up to `0xFF`, modulo `2^8`. -/
def Word.storeByte (v : Int) : Except AsmError Word :=
  if -0x80 ≤ v ∧ v ≤ 0xFF then .ok (Word.ofInt (v % 0x100)) else .error (.byteOverflow v)

namespace Data

/-- A number after its minus sign: decimal digits, or a signed hexadecimal numeral after `0x`. -/
def magnitude? (token : List Char) : Option Int :=
  match Numeral.afterHexMark? token with
  | some numeral => Numeral.readInt64? 16 numeral
  | none =>
    if (token.head?.map Char.isDigit).getD false then Numeral.readInt64? 10 token else none

/-- Read a number.  There is no 64-bit number opposite to the smallest one. -/
def readItem (item : List Char) : Except (Stop AsmError) Int :=
  let token := trim item
  match dropHead? '-' token with
  | some rest =>
    match magnitude? (trimStart rest) with
    | some v => if v = Numeral.int64Min then .error (.fault .overflow) else .ok (-v)
    | none => .error (.error (.badData (String.ofList token)))
  | none =>
    match magnitude? token with
    | some v => .ok v
    | none => .error (.error (.badData (String.ofList token)))

/-- Read numbers with commas between them. -/
def readItems (rest : List Char) : Except (Stop AsmError) (List Int) :=
  if (trim rest).isEmpty then .ok [] else (rest.splitOn ',').mapM readItem

/-- The character that stands after a backslash for another one. -/
def escaped? : Char → Option Char
  | 'n' => some '\n'
  | 't' => some '\t'
  | 'r' => some '\r'
  | '0' => some '\x00'
  | '\\' => some '\\'
  | '"' => some '"'
  | _ => none

/-- Resolve the escapes of a quoted text.  A quote in it has to be escaped. -/
def unescape? : List Char → Option (List Char)
  | [] => some []
  | ['\\'] => none
  | '\\' :: c :: cs => do return (← escaped? c) :: (← unescape? cs)
  | c :: cs => if c = '"' then none else (unescape? cs).map (c :: ·)

/-- The text between two quotes. -/
def unquote? (rest : List Char) : Option (List Char) := do
  unescape? (← dropLast? '"' (← dropHead? '"' rest))

/-- One word for each byte of a text in UTF-8. -/
def utf8Words (cs : List Char) : List Word :=
  (cs.flatMap String.utf8EncodeChar).map UInt8.toUInt16

/-- Read a quoted text. -/
def readString (rest : List Char) : Except (Stop AsmError) (List Word) :=
  match unquote? rest with
  | some cs => .ok (utf8Words cs)
  | none => .error (.error (.badData (String.ofList rest)))

/-- Read a list of numbers and store each of them. -/
def readNumbers (store : Int → Except AsmError Word) (rest : List Char) :
    Except (Stop AsmError) (List Word) := do
  let values ← readItems rest
  (values.mapM store).mapError Stop.error

/-- The words of a data directive. -/
def parse (d : Directive) (rest : String) : Except (Stop AsmError) (List Word) :=
  match d with
  | .string => readString rest.toList
  | .asciz => (readString rest.toList).map fun words => words ++ [0]
  | .byte => readNumbers Word.storeByte rest.toList
  | .short | .word | .uint16T | .uint16 => readNumbers Word.store rest.toList
  | _ => .error (.error (.badData (d.name ++ " " ++ rest)))

/-- Words as a data directive. -/
def render (words : List Word) : String :=
  ".word " ++ ", ".intercalate (words.map fun w => "0x" ++ Numeral.hex w.toNat)

end Data

end Dcpu16

import Dcpu16.Image

/-! Listings: the address, the words and the meaning of every record of an image. -/

namespace Dcpu16

open Text

/-- What the words of an instruction mean. -/
inductive Meaning where
  | decoded (i : Instruction)
  /-- The words are no instruction, such as zeros in the place of one that failed; this is its
  source. -/
  | undecoded (source : String)
  deriving DecidableEq, Repr

/-- The text of a meaning. -/
def Meaning.styled : Meaning → Styled
  | decoded i => i.styled
  | undecoded source => Styled.strong .red "??" ++ Styled.bare (" " ++ source)

/-- A row of a listing. -/
inductive Row where
  /-- A symbol that stands for the record below. -/
  | label (name : String)
  /-- A machine instruction. -/
  | instruction (address : Option Nat) (words : List Word) (meaning : Meaning) (place : String)
  /-- Up to four words of data. -/
  | data (address : Option Nat) (words : List Word) (place : String)
  deriving DecidableEq, Repr

namespace Row

/-- An address, or question marks if there is none. -/
def addressText : Option Nat → String
  | some address => Numeral.fourHex address
  | none => "????"

/-- Words with a blank between them. -/
def wordsText (words : List Word) : String :=
  " ".intercalate (words.map fun w => Numeral.fourHex w.toNat)

/-- The columns for the address and the words. -/
def columns (address : Option Nat) (words : List Word) : String :=
  "[" ++ addressText address ++ "] | " ++ padRight 21 (wordsText words) ++ "| "

/-- The place of a record in its source, as a comment. -/
def comment (place : String) : Styled :=
  Styled.inStyle .dim ("; " ++ place)

/-- The text of a row. -/
def render : Row → String
  | label name =>
    padRight 7 "" ++ "| " ++ padRight 21 "" ++ "| " ++ (Styled.inStyle .green (name ++ ":")).ansi
  | instruction address words meaning place =>
    columns address words ++ padRight 24 meaning.styled.ansi ++ " " ++ (comment place).ansi
  | data address words place =>
    columns address words ++
      (Styled.inStyle .yellow ".word" ++ Styled.bare " " ++ comment place).ansi

end Row

/-- Cut words into pieces of four; the last may have fewer. -/
def quads : List Word → List (List Word)
  | a :: b :: c :: d :: e :: rest => [a, b, c, d] :: quads (e :: rest)
  | [] => []
  | words => [words]

/-- Rows for pieces of data, the first at `address` and each four words further on. -/
def dataRows (place : String) : Option Nat → List (List Word) → List Row
  | _, [] => []
  | address, words :: rest =>
    .data address words place :: dataRows place (address.map (· + 4)) rest

namespace Record

/-- What the words of the record mean. -/
def meaning (r : Record) : Meaning :=
  match Instruction.decode? r.wordList with
  | some (i, _) => .decoded i
  | none => .undecoded r.content.render

/-- The rows for the content of a record. -/
def contentRows (r : Record) : List Row :=
  let address := r.address.map UInt16.toNat
  let place := shownPlace r.file r.line
  match r.content with
  | .operation _ => [.instruction address r.wordList r.meaning place]
  | .data _ => dataRows place address (quads r.wordList)
  | .mark => []

/-- The rows of a record, its symbols first. -/
def rows? (r : Record) (symbols : SymbolStore) : Option (List Row) := do
  let names ← r.defined.mapM symbols.mangled?
  return names.map Row.label ++ r.contentRows

end Record

namespace Image

/-- The rows of the listing. -/
def rows? (image : Image) : Option (List Row) := do
  return (← image.allRecords.mapM fun r => r.rows? image.program.symbols).flatten

/-- The lines of the listing. -/
def listing? (image : Image) : Option (List String) :=
  image.rows?.map fun rows => rows.map Row.render

/-- The line above and below a listing. -/
def listingRule : String :=
  "-------+----------------------+-----------------------------------------------"

end Image

end Dcpu16

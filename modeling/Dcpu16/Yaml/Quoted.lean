import Dcpu16.Text.Numeral
import Dcpu16.Yaml.Line

/-! Quoted scalars, one line at a time. -/

namespace Dcpu16.Yaml

open Text

/-- The quotes around a scalar. -/
inductive Quote where
  | single
  | double
  deriving DecidableEq, Repr

/-- What a line of a quoted scalar adds to it. -/
inductive QuotedLine where
  /-- The quotes are closed, and this text follows. -/
  | closed (text rest : List Char)
  /-- The scalar goes on in the next line.  Its break may be escaped. -/
  | continued (text : List Char) (escapedBreak : Bool)
  deriving DecidableEq, Repr

/-- More text at the front. -/
def QuotedLine.prepend (front : List Char) : QuotedLine → QuotedLine
  | closed text rest => closed (front ++ text) rest
  | continued text escapedBreak => continued (front ++ text) escapedBreak

/-- Read a line between single quotes, after some blanks.  Two quotes stand for one; blanks at the
end of the line are no part of the scalar. -/
def readSingle : (blanks : List Char) → List Char → QuotedLine
  | _, [] => .continued [] false
  | blanks, '\x27' :: '\x27' :: cs => (readSingle [] cs).prepend (blanks ++ ['\x27'])
  | blanks, c :: cs =>
    if c = '\x27' then .closed blanks cs
    else if isSpace c then readSingle (blanks ++ [c]) cs
    else (readSingle [] cs).prepend (blanks ++ [c])

/-- The character that stands after a backslash for another one. -/
def escaped? : Char → Option Char
  | '0' => some '\x00'
  | 'a' => some '\x07'
  | 'b' => some '\x08'
  | 't' => some '\t'
  | '\t' => some '\t'
  | 'n' => some '\n'
  | 'v' => some '\x0b'
  | 'f' => some '\x0c'
  | 'r' => some '\r'
  | 'e' => some '\x1b'
  | ' ' => some ' '
  | '"' => some '"'
  | '/' => some '/'
  | '\\' => some '\\'
  | 'N' => some '\u0085'
  | '_' => some '\u00a0'
  | 'L' => some '\u2028'
  | 'P' => some '\u2029'
  | _ => none

/-- How many hexadecimal digits of a character's number follow a letter after a backslash. -/
def codeLength? : Char → Option Nat
  | 'x' => some 2
  | 'u' => some 4
  | 'U' => some 8
  | _ => none

/-- The character with a given number. -/
def charOfCode? (n : Nat) : Option Char :=
  if h : n.isValidChar then some (Char.ofNatAux n h) else none

/-- Where in a line between double quotes the next character stands. -/
inductive EscapeState where
  /-- After some blanks. -/
  | text (blanks : List Char)
  /-- After a backslash. -/
  | backslash
  /-- In the number of a character, before one digit more than `left`. -/
  | code (left value : Nat)
  deriving DecidableEq, Repr

/-- Read a line between double quotes. -/
def readDouble : EscapeState → List Char → Option QuotedLine
  | .text _, [] => some (.continued [] false)
  | .backslash, [] => some (.continued [] true)
  | .code _ _, [] => none
  | .text blanks, c :: cs =>
    if c = '"' then some (.closed blanks cs)
    else if isSpace c then readDouble (.text (blanks ++ [c])) cs
    else if c = '\\' then (readDouble .backslash cs).map (QuotedLine.prepend blanks)
    else (readDouble (.text []) cs).map (QuotedLine.prepend (blanks ++ [c]))
  | .backslash, c :: cs =>
    match codeLength? c, escaped? c with
    | some n, _ => readDouble (.code (n - 1) 0) cs
    | none, some d => (readDouble (.text []) cs).map (QuotedLine.prepend [d])
    | none, none => none
  | .code left value, c :: cs =>
    match Numeral.hexValue? c, left with
    | none, _ => none
    | some d, left + 1 => readDouble (.code left (16 * value + d)) cs
    | some d, 0 =>
      match charOfCode? (16 * value + d) with
      | some char => (readDouble (.text []) cs).map (QuotedLine.prepend [char])
      | none => none

namespace Quote

/-- The quote that a text starts with, and the text after it. -/
def opening? : List Char → Option (Quote × List Char)
  | '\x27' :: rest => some (single, rest)
  | '"' :: rest => some (double, rest)
  | _ => none

/-- Read a line between quotes. -/
def readLine? (quote : Quote) (cs : List Char) : Option QuotedLine :=
  match quote with
  | single => some (readSingle [] cs)
  | double => readDouble (.text []) cs

end Quote

end Dcpu16.Yaml

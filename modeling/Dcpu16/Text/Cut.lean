import Dcpu16.Text.Blank

/-! Cutting text: fixed heads and tails, the first token of a text, and the lines of a source. -/

namespace Dcpu16.Text

/-- `cs` without the head `c`, if it has it. -/
def dropHead? (c : Char) : List Char → Option (List Char)
  | [] => none
  | d :: cs => if d = c then some cs else none

/-- `cs` without the last character `c`, if it has it. -/
def dropLast? (c : Char) (cs : List Char) : Option (List Char) :=
  if cs.getLast? = some c then some cs.dropLast else none

/-- The part before the first `c` and the part after it.  Without a `c` all of the text comes
before it. -/
def cutAt (c : Char) (cs : List Char) : List Char × List Char :=
  (cs.takeWhile (· != c), (cs.dropWhile (· != c)).tail)

/-- Do two `$` stand side by side in the text? -/
def hasDoubleDollar : List Char → Bool
  | '$' :: '$' :: _ => true
  | _ :: cs => hasDoubleDollar cs
  | [] => false

/-- A line that ends in a line feed, without the carriage return before it. -/
def dropReturn (line : List Char) : List Char :=
  (dropLast? '\r' line).getD line

/-- The lines of a source.  A line feed ends a line and takes one carriage return before it along;
a line feed at the very end opens no further line. -/
def lines (cs : List Char) : List (List Char) :=
  let parts := cs.splitOn '\n'
  let ended := parts.dropLast.map dropReturn
  match parts.getLast? with
  | some (c :: rest) => ended ++ [c :: rest]
  | _ => ended

/-- ASCII letters in lower case, every other character as it is. -/
def lower (cs : List Char) : List Char :=
  cs.map Char.toLower

/-- The text `s` in ASCII lower case is `name`. -/
def isNamed (name s : String) : Bool :=
  lower s.toList == name.toList

/-- `s` followed by blanks up to the width `n`. -/
def padRight (n : Nat) (s : String) : String :=
  String.ofList (s.toList ++ List.replicate (n - s.length) ' ')

/-- `s` with blanks in front up to the width `n`. -/
def padLeft (n : Nat) (s : String) : String :=
  String.ofList (List.replicate (n - s.length) ' ' ++ s.toList)

end Dcpu16.Text

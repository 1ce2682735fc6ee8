/-! The characters and lines of a YAML document. -/

namespace Dcpu16.Yaml

/-- Can the character stand in a document?  Control characters other than tabs and line breaks
cannot. -/
def isAllowed (c : Char) : Bool :=
  let n := c.toNat
  c = '\t' || c = '\n' || c = '\r' || (0x20 ≤ n && n ≤ 0x7E) || n = 0x85 ||
    (0xA0 ≤ n && n ≤ 0xFFFD) || 0x10000 ≤ n

/-- A blank or a tab, which separate items on a line. -/
def isSpace (c : Char) : Bool := c = ' ' || c = '\t'

/-- A line or paragraph separator, a break that stays as it is in a scalar. -/
def isSeparator (c : Char) : Bool := c = '\u2028' || c = '\u2029'

/-- A character that ends a line. -/
def isBreak (c : Char) : Bool :=
  c = '\n' || c = '\r' || c = '\u0085' || isSeparator c

/-- A line, without its break. -/
structure Line where
  text : List Char
  /-- What its break means in a scalar. -/
  ending : Char
  deriving DecidableEq, Repr

/-- One more character in front of the first line. -/
def consChar (c : Char) : List Line → List Line
  | line :: lines => { line with text := c :: line.text } :: lines
  | [] => [⟨[c], '\n'⟩]

/-- The lines of a document.  The last one has no break. -/
def lines : List Char → List Line
  | [] => [⟨[], '\n'⟩]
  | '\r' :: '\n' :: cs => ⟨[], '\n'⟩ :: lines cs
  | c :: cs =>
    if isBreak c then ⟨[], if isSeparator c then c else '\n'⟩ :: lines cs
    else consChar c (lines cs)

/-- Without blanks at the end. -/
def stripEnd (cs : List Char) : List Char :=
  (cs.reverse.dropWhile isSpace).reverse

/-- Is there nothing in a text, or a comment? -/
def isVoid : List Char → Bool
  | [] => true
  | c :: _ => c = '#'

/-- Is there nothing but blanks and a comment? -/
def isVoidAfterBlanks (cs : List Char) : Bool :=
  isVoid (cs.dropWhile isSpace)

/-- The text in front of a comment, which a blank separates from it. -/
def beforeComment : List Char → List Char
  | [] => []
  | c :: '#' :: rest => if isSpace c then [] else c :: beforeComment ('#' :: rest)
  | c :: rest => c :: beforeComment rest

/-- Is there a blank, or nothing at all, at the front of the text? -/
def startsWithGap (cs : List Char) : Bool :=
  cs.head?.all isSpace

/-- The text in front of a colon that a blank or the end of the line follows. -/
def beforeColon? : List Char → Option (List Char)
  | [] => none
  | c :: rest =>
    if c = ':' && startsWithGap rest then some [] else (beforeColon? rest).map (c :: ·)

/-- The column at which the text of a line starts, and that text.  A byte order mark at the start of
a line takes a column. -/
def indented (line : List Char) : Nat × List Char :=
  match line with
  | '\ufeff' :: rest =>
    (1 + (rest.takeWhile (· = ' ')).length, rest.dropWhile (· = ' '))
  | _ => ((line.takeWhile (· = ' ')).length, line.dropWhile (· = ' '))

/-- The text after three times `c` at the start of a line, if a blank or the end follows.  Dashes
open a document so, and dots close it. -/
def afterMarker? (c : Char) : List Char → Option (List Char)
  | x :: y :: z :: rest =>
    if x = c && y = c && z = c && startsWithGap rest then some rest else none
  | _ => none

/-- The breaks between two lines of a scalar: that of the line before, unless it is escaped, and
those of empty lines. -/
structure Gap where
  first : Option Char
  more : List Char
  deriving DecidableEq, Repr

namespace Gap

/-- The end of one line. -/
def ofLine (line : Line) : Gap := ⟨some line.ending, []⟩

/-- One more empty line. -/
def addLine (gap : Gap) (line : Line) : Gap := { gap with more := gap.more ++ [line.ending] }

/-- What stands for the breaks in the scalar: a blank for one break, and otherwise one break less
than there are.  Separators stay. -/
def fold (gap : Gap) : List Char :=
  match gap.first, gap.more with
  | some '\n', [] => [' ']
  | some '\n', more => more
  | some c, more => c :: more
  | none, more => more

end Gap

end Dcpu16.Yaml

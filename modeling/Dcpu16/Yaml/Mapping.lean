import Dcpu16.Yaml.Quoted
import Dcpu16.Yaml.Scalar

/-! YAML documents that are a flat mapping from keys to scalars.

The keys stand one below the other, each followed by a colon and its scalar.  A plain scalar goes on
in lines that are indented further than the keys, a quoted one up to its quote.  Tabs do not indent.
`{}` and a document without content are the empty mapping.  There is one document, which dashes may
open and dots may close. -/

namespace Dcpu16.Yaml

/-- Where the reading of a document stands between two lines. -/
inductive Stage where
  /-- There is no content yet.  Dashes may have opened the document. -/
  | start (opened : Bool)
  /-- Between entries.  The last key may still wait for its scalar. -/
  | between (waiting : Option String)
  /-- In a plain scalar. -/
  | plain (key : String) (text : List Char) (gap : Gap)
  /-- In a quoted scalar. -/
  | quoted (quote : Quote) (key : String) (text : List Char) (gap : Gap)
  /-- In braces, with nothing in them yet. -/
  | braces
  /-- The braces are closed. -/
  | complete
  /-- The document is closed. -/
  | closed
  deriving DecidableEq, Repr

/-- A document while it is read. -/
structure Reading where
  /-- The column of the keys. -/
  column : Nat := 0
  entries : List (String × Scalar) := []
  stage : Stage := .start false
  deriving DecidableEq, Repr

/-- Characters that no plain scalar starts with. -/
def indicators : List Char :=
  [',', '[', ']', '\x7b', '\x7d', '#', '&', '*', '!', '|', '>', '\x27', '"', '%', '@', '\x60']

/-- Can a plain scalar start so? -/
def startsPlain : List Char → Bool
  | [] => false
  | c :: rest =>
    !isSpace c && !indicators.contains c &&
      !((c = '-' || c = '?' || c = ':') && startsWithGap rest)

/-- The longest stretch from the start of a key to its colon. -/
def maxKeyLength : Nat := 1024

/-- The key at the front of a text, the text after its colon, and how far the colon is from the
start.  A key ends in the line in which it starts. -/
def key? (text : List Char) : Option (List Char × List Char × Nat) :=
  match Quote.opening? text with
  | some (quote, rest) =>
    match quote.readLine? rest with
    | some (.closed key rest) =>
      match rest.dropWhile isSpace with
      | ':' :: value => some (key, value, text.length - value.length - 1)
      | _ => none
    | _ => none
  | none =>
    if startsPlain text then
      (beforeColon? (beforeComment text)).map fun key =>
        (stripEnd key, text.drop (key.length + 1), key.length)
    else none

namespace Reading

/-- Add an entry. -/
def add (r : Reading) (key : String) (value : Scalar) : Reading :=
  { r with entries := r.entries ++ [(key, value)], stage := .between none }

/-- Go on in another stage. -/
def moveTo (r : Reading) (stage : Stage) : Option Reading :=
  some { r with stage }

/-- Take a line of a plain scalar, after the text of the lines before it.  A colon with a blank
after it would be that of a key, which cannot be there. -/
def takePlain (r : Reading) (key : String) (before text : List Char) (line : Line) :
    Option Reading :=
  let part := beforeComment text
  if (beforeColon? part).isSome then none
  else
    let whole := before ++ stripEnd part
    if part.length < text.length then some (r.add key (.plain (String.ofList whole)))
    else r.moveTo (.plain key whole (.ofLine line))

/-- Take a line of a quoted scalar, after the text of the lines before it. -/
def takeQuoted (r : Reading) (quote : Quote) (key : String) (before text : List Char)
    (line : Line) : Option Reading :=
  match quote.readLine? text with
  | none => none
  | some (.closed text rest) =>
    if isVoidAfterBlanks rest then some (r.add key (.quoted (String.ofList (before ++ text))))
    else none
  | some (.continued text escapedBreak) =>
    let gap : Gap := if escapedBreak then ⟨none, []⟩ else .ofLine line
    r.moveTo (.quoted quote key (before ++ text) gap)

/-- Take a text that starts with the scalar of a key. -/
def takeScalar (r : Reading) (key : String) (text : List Char) (line : Line) : Option Reading :=
  match Quote.opening? text with
  | some (quote, rest) => r.takeQuoted quote key [] rest line
  | none => if startsPlain text then r.takePlain key [] text line else none

/-- Take the text after the colon of a key.  The scalar may also stand in a line below. -/
def takeValue (r : Reading) (key : String) (text : List Char) (line : Line) : Option Reading :=
  let text := text.dropWhile isSpace
  if isVoid text then r.moveTo (.between (some key)) else r.takeScalar key text line

/-- Take a text that starts with a key. -/
def takeEntry (r : Reading) (text : List Char) (line : Line) : Option Reading :=
  match key? text with
  | some (key, value, distance) =>
    if startsWithGap value && distance ≤ maxKeyLength then
      r.takeValue (String.ofList key) value line
    else none
  | none => none

/-- Take a text inside braces. -/
def takeBraces (r : Reading) (text : List Char) : Option Reading :=
  match text.dropWhile isSpace with
  | '\x7d' :: rest => if isVoidAfterBlanks rest then r.moveTo .complete else none
  | rest => if isVoid rest then r.moveTo .braces else none

/-- A key that waits for its scalar has an empty one. -/
def settle (r : Reading) : Reading :=
  match r.stage with
  | .between (some key) => r.add key (.plain "")
  | _ => r

/-- Open the document with dashes, before all content. -/
def openWith (r : Reading) (rest : List Char) : Option Reading :=
  match r.stage with
  | .start false =>
    if isVoidAfterBlanks rest then r.moveTo (.start true)
    else
      match rest.dropWhile isSpace with
      | '\x7b' :: rest => r.takeBraces rest
      | _ => none
  | _ => none

/-- Close the document with dots. -/
def closeWith (r : Reading) (rest : List Char) : Option Reading :=
  match r.stage with
  | .start false => none
  | _ => if isVoidAfterBlanks rest then r.settle.moveTo .closed else none

/-- Take a text at a column, at the front of a line. -/
def takeText (r : Reading) (column : Nat) (text : List Char) (line : Line) : Option Reading :=
  match r.stage, text with
  | .start _, '\x7b' :: rest => r.takeBraces rest
  | .start _, _ => { r with column }.takeEntry text line
  | .between waiting, _ =>
    if column = r.column then r.settle.takeEntry text line
    else if r.column < column then waiting.bind fun key => r.takeScalar key text line
    else none
  | _, _ => none

/-- Take a line in which no scalar goes on. -/
def takeFresh (r : Reading) (line : Line) : Option Reading :=
  match afterMarker? '-' line.text, afterMarker? '.' line.text with
  | some rest, _ => r.openWith rest
  | none, some rest => r.closeWith rest
  | none, none =>
    let (column, text) := indented line.text
    if isVoid text then some r else r.takeText column text line

/-- Take a line in which a plain scalar may go on.  A tab cannot stand where the indentation of the
scalar has to be. -/
def continuePlain (r : Reading) (key : String) (text : List Char) (gap : Gap) (line : Line) :
    Option Reading :=
  let spaces := (line.text.takeWhile (· = ' ')).length
  let column := (line.text.takeWhile isSpace).length
  let rest := line.text.dropWhile isSpace
  let whole := r.add key (.plain (String.ofList text))
  if spaces ≤ r.column && spaces < column then none
  else if rest.isEmpty then r.moveTo (.plain key text (gap.addLine line))
  else if column ≤ r.column then whole.takeFresh line
  else if isVoid rest then some whole
  else r.takePlain key (text ++ gap.fold) rest line

/-- Take a line in which a quoted scalar goes on. -/
def continueQuoted (r : Reading) (quote : Quote) (key : String) (text : List Char) (gap : Gap)
    (line : Line) : Option Reading :=
  let rest := line.text.dropWhile isSpace
  if (afterMarker? '-' line.text).isSome || (afterMarker? '.' line.text).isSome then none
  else if rest.isEmpty then r.moveTo (.quoted quote key text (gap.addLine line))
  else r.takeQuoted quote key (text ++ gap.fold) rest line

/-- Take a line. -/
def takeLine (r : Reading) (line : Line) : Option Reading :=
  match r.stage with
  | .plain key text gap => r.continuePlain key text gap line
  | .quoted quote key text gap => r.continueQuoted quote key text gap line
  | .braces => r.takeBraces (indented line.text).2
  | .start _ | .between _ | .complete | .closed => r.takeFresh line

/-- The entries at the end of the document. -/
def finish (r : Reading) : Option (List (String × Scalar)) :=
  match r.stage with
  | .plain key text _ => some (r.add key (.plain (String.ofList text))).entries
  | .quoted _ _ _ _ | .braces => none
  | .start _ | .between _ | .complete | .closed => some r.settle.entries

end Reading

/-- The entries of a mapping, in order. -/
def mapping? (text : String) : Option (List (String × Scalar)) :=
  if text.toList.all isAllowed then do
    let reading ← (lines text.toList).foldlM Reading.takeLine {}
    reading.finish
  else none

end Dcpu16.Yaml

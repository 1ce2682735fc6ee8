import Dcpu16.Text.Blank

/-! The tidy form of a source line: no comment, no white space at the ends, and one blank where
white space separated two items.  A comment runs from a `;` to the end of the line.  Text in double
quotes is kept as it is; a backslash there takes the quote's meaning from the next character. -/

namespace Dcpu16.Text

/-- Where in a line the next character stands. -/
inductive TidyState where
  /-- Nothing has been kept yet. -/
  | start
  /-- Right after a character that was kept. -/
  | item
  /-- In white space after an item. -/
  | gap
  /-- Between quotes. -/
  | quoted
  /-- Between quotes, after a backslash. -/
  | escaped
  deriving DecidableEq, Repr

/-- The state after a character outside quotes that is kept. -/
def TidyState.afterItem (c : Char) : TidyState :=
  if c = '"' then .quoted else .item

/-- The tidy form of the rest of a line. -/
def tidyFrom : TidyState → List Char → List Char
  | _, [] => []
  | .start, c :: cs =>
    if c = ';' then [] else if isBlank c then tidyFrom .start cs
    else c :: tidyFrom (.afterItem c) cs
  | .item, c :: cs =>
    if c = ';' then [] else if isBlank c then tidyFrom .gap cs
    else c :: tidyFrom (.afterItem c) cs
  | .gap, c :: cs =>
    if c = ';' then [] else if isBlank c then tidyFrom .gap cs
    else ' ' :: c :: tidyFrom (.afterItem c) cs
  | .quoted, c :: cs =>
    c :: tidyFrom (if c = '\\' then .escaped else if c = '"' then .item else .quoted) cs
  | .escaped, c :: cs => c :: tidyFrom .quoted cs

/-- The tidy form of a line. -/
def tidy (line : List Char) : List Char :=
  tidyFrom .start line

end Dcpu16.Text

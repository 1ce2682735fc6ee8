/-! Styled text: spans of text with their colour and weight.  `ansi` writes it with terminal
escapes, `plain` without. -/

namespace Dcpu16.Text

/-- A colour or weight of a span. -/
inductive Style where
  | red
  | green
  | yellow
  | blue
  | magenta
  | bold
  | dim
  | underline
  deriving DecidableEq, Repr

namespace Style

/-- The escape that switches the style on. -/
def enter : Style → String
  | red => "\x1b[31m"
  | green => "\x1b[32m"
  | yellow => "\x1b[33m"
  | blue => "\x1b[34m"
  | magenta => "\x1b[35m"
  | bold => "\x1b[1m"
  | dim => "\x1b[2m"
  | underline => "\x1b[4m"

/-- The escape that switches the style off. -/
def leave : Style → String
  | red | green | yellow | blue | magenta => "\x1b[39m"
  | bold | dim => "\x1b[22m"
  | underline => "\x1b[24m"

end Style

/-- A piece of text with its styles. -/
structure Span where
  styles : List Style
  text : String
  deriving DecidableEq, Repr

/-- The span between its escapes.  Styles are entered and left in the order they are listed. -/
def Span.ansi (span : Span) : String :=
  String.join (span.styles.map Style.enter) ++ span.text ++
    String.join (span.styles.map Style.leave)

/-- Text made of styled spans. -/
abbrev Styled := List Span

namespace Styled

/-- Text without a style. -/
def bare (text : String) : Styled :=
  [⟨[], text⟩]

/-- Text in one style. -/
def inStyle (style : Style) (text : String) : Styled :=
  [⟨[style], text⟩]

/-- Text in a colour and bold. -/
def strong (colour : Style) (text : String) : Styled :=
  [⟨[colour, .bold], text⟩]

/-- The text with its escapes. -/
def ansi (text : Styled) : String :=
  String.join (text.map Span.ansi)

/-- The text alone. -/
def plain (text : Styled) : String :=
  String.join (text.map Span.text)

end Styled

end Dcpu16.Text

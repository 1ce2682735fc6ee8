import Dcpu16.Text.Numeral

/-! Scalars of a YAML document, and the values that they stand for. -/

namespace Dcpu16.Yaml

open Text

/-- A scalar.  Only a plain one can be a number, a truth value or null. -/
inductive Scalar where
  | plain (text : String)
  | quoted (text : String)
  deriving DecidableEq, Repr

namespace Scalar

/-- The text of a scalar. -/
def text : Scalar → String
  | plain text | quoted text => text

/-- The number that digits stand for.  Zeros in front of a decimal number make it a text. -/
def digitsValue? : List Char → Option Nat
  | '0' :: 'x' :: digits => Numeral.digits? 16 digits
  | '0' :: 'o' :: digits => Numeral.digits? 8 digits
  | '0' :: 'b' :: digits => Numeral.digits? 2 digits
  | '0' :: _ :: _ => none
  | digits => Numeral.digits? 10 digits

/-- A number that is not negative; it may have a plus sign. -/
def nat? : Scalar → Option Nat
  | plain text =>
    match text.toList with
    | '+' :: digits => digitsValue? digits
    | digits => digitsValue? digits
  | quoted _ => none

/-- A truth value. -/
def bool? : Scalar → Option Bool
  | plain text =>
    if ["true", "True", "TRUE"].contains text then some true
    else if ["false", "False", "FALSE"].contains text then some false
    else none
  | quoted _ => none

/-- The ways to write null. -/
def nulls : List String := ["", "~", "null", "Null", "NULL"]

/-- The text, unless the scalar is null. -/
def text? : Scalar → Option String
  | plain text => if nulls.contains text then none else some text
  | quoted text => some text

end Scalar

end Dcpu16.Yaml

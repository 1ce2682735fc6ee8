/-! Numerals: digits in a base up to sixteen, read with an optional sign and written without one.
Both cases of a hexadecimal digit are read. -/

namespace Dcpu16.Text.Numeral

/-- The value of a hexadecimal digit. -/
def hexValue? (c : Char) : Option Nat :=
  if '0' ≤ c ∧ c ≤ '9' then some (c.toNat - '0'.toNat)
  else if 'a' ≤ c ∧ c ≤ 'f' then some (c.toNat - 'a'.toNat + 10)
  else if 'A' ≤ c ∧ c ≤ 'F' then some (c.toNat - 'A'.toNat + 10)
  else none

/-- The value of a digit of the given base. -/
def digit? (base : Nat) (c : Char) : Option Nat :=
  (hexValue? c).filter (· < base)

/-- The number written by the digits `cs` after the digits of `n`. -/
def digitsFrom? (base : Nat) : Nat → List Char → Option Nat
  | n, [] => some n
  | n, c :: cs =>
    match digit? base c with
    | some d => digitsFrom? base (n * base + d) cs
    | none => none

/-- The number written by one or more digits. -/
def digits? (base : Nat) (cs : List Char) : Option Nat :=
  if cs.isEmpty then none else digitsFrom? base 0 cs

/-- One or more digits, with at most one `+` in front. -/
def readNat? (base : Nat) : List Char → Option Nat
  | '+' :: cs => digits? base cs
  | cs => digits? base cs

/-- One or more digits, with at most one sign in front. -/
def readInt? (base : Nat) : List Char → Option Int
  | '-' :: cs => (digits? base cs).map fun n => -(n : Int)
  | cs => (readNat? base cs).map Int.ofNat

/-- The smallest signed number of 64 bits. -/
def int64Min : Int := -0x8000000000000000

/-- The largest signed number of 64 bits. -/
def int64Max : Int := 0x7FFFFFFFFFFFFFFF

/-- A signed numeral whose value has 64 bits. -/
def readInt64? (base : Nat) (cs : List Char) : Option Int :=
  (readInt? base cs).filter fun v => int64Min ≤ v && v ≤ int64Max

/-- The text after a prefix `0x` or `0X`. -/
def afterHexMark? : List Char → Option (List Char)
  | '0' :: 'x' :: cs => some cs
  | '0' :: 'X' :: cs => some cs
  | _ => none

/-- The decimal digits of `n`. -/
def decimal (n : Nat) : String :=
  String.ofList (Nat.toDigits 10 n)

/-- A decimal numeral, with a `-` in front if it is negative. -/
def signed (v : Int) : String :=
  if v < 0 then "-" ++ decimal v.natAbs else decimal v.natAbs

/-- The hexadecimal digits of `n`, in lower case. -/
def hex (n : Nat) : String :=
  String.ofList (Nat.toDigits 16 n)

/-- The hexadecimal digits of `n`, in upper case. -/
def upperHex (n : Nat) : String :=
  String.ofList ((Nat.toDigits 16 n).map Char.toUpper)

/-- At least four hexadecimal digits, in upper case. -/
def fourHex (n : Nat) : String :=
  let digits := (Nat.toDigits 16 n).map Char.toUpper
  String.ofList (List.replicate (4 - digits.length) '0' ++ digits)

end Dcpu16.Text.Numeral

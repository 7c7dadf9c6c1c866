import FacetSearch.Number.Binary64
import FacetSearch.Text.Pieces

set_option autoImplicit false

/-! # Reading decimal texts

Numbers as people write them. A whole number is ASCII digits with an optional sign and has to fit its
range. A binary64 number may have a point and an exponent, or be an infinity or a NaN by name in any
case; it is read as the nearest number there is. Neither takes a blank, a separator or a digit of
another script. -/

namespace FacetSearch.Decimal

/-! ## Digits -/

/-- The value of an ASCII digit. -/
def digit? (c : Char) : Option Nat :=
  if '0' ≤ c ∧ c ≤ '9' then some (c.toNat - '0'.toNat) else none

def isDigit (c : Char) : Bool := (digit? c).isSome

/-- The number that a run of digits writes. -/
def value (digits : List Char) : Nat :=
  digits.foldl (fun n c => n * 10 + (digit? c).getD 0) 0

/-- The digits at the front of a text, and the rest. -/
def leadingDigits (text : List Char) : List Char × List Char :=
  (text.takeWhile isDigit, text.dropWhile isDigit)

/-- A sign at the front (negative?), and the rest. -/
def leadingSign : List Char → Option Bool × List Char
  | '+' :: rest => (some false, rest)
  | '-' :: rest => (some true, rest)
  | rest => (none, rest)

/-! ## Whole numbers -/

/-- The number that a text of digits alone writes. -/
def natChars? (text : List Char) : Option Nat :=
  if text.isEmpty || !text.all isDigit then none else some (value text)

/-- A whole number from 0 to `greatest`, with an optional `+`. -/
def nat? (greatest : Nat) (text : String) : Option Nat :=
  let body := match text.toList with
    | '+' :: rest => rest
    | chars => chars
  (natChars? body).filter (· ≤ greatest)

/-- The largest unsigned 64-bit number. -/
def greatestWord : Nat := UInt64.size - 1

/-- The number is a signed 64-bit number. -/
def fitsInt64 (z : Int) : Bool := -0x8000000000000000 ≤ z && z < 0x8000000000000000

/-- A signed 64-bit number, with an optional sign. -/
def int64? (text : String) : Option Int :=
  let (sign, body) := leadingSign text.toList
  (natChars? body).bind fun n =>
    let z : Int := if sign = some true then -(n : Int) else n
    if fitsInt64 z then some z else none

/-! ## Binary64 numbers -/

/-- The number nearest to `± digits · 10 ^ exponent`. Exponents that no double reaches are cut off
    before any power of ten is formed. -/
def scaled (negative : Bool) (digits : List Char) (exponent : Int) : Binary64 :=
  let n := value digits
  let top : Int := exponent + digits.length
  if n = 0 ∨ top < -400 then .finite negative 0
  else if (n.log2 : Int) + 3 * exponent > 1100 ∧ exponent > 0 then .infinite negative
  else if exponent ≥ 0 then .ofRatio negative (n * Nat.pow 10 exponent.toNat) 1
  else .ofRatio negative n (Nat.pow 10 (-exponent).toNat)

/-- The exponent part `e±digits` of a number; without the letter it is zero. -/
def exponent? : List Char → Option Int
  | [] => some 0
  | c :: rest =>
    if c = 'e' ∨ c = 'E' then
      let (sign, body) := leadingSign rest
      (natChars? body).map fun n => if sign = some true then -(n : Int) else n
    else none

/-- A number without its sign: digits with at most one point, at least one digit, and an exponent. -/
def unsigned? (negative : Bool) (text : List Char) : Option Binary64 :=
  let (whole, rest) := leadingDigits text
  let (fraction, rest) := match rest with
    | '.' :: rest => leadingDigits rest
    | rest => ([], rest)
  if whole.isEmpty && fraction.isEmpty then none
  else (exponent? rest).map fun e => scaled negative (whole ++ fraction) (e - fraction.length)

/-- A binary64 number in decimal notation or by name. -/
def binary64? (text : String) : Option Binary64 :=
  let (sign, body) := leadingSign text.toList
  let negative := sign = some true
  let name := (String.ofList body).toLower
  if name = "inf" ∨ name = "infinity" then some (.infinite negative)
  else if name = "nan" then some .nan
  else unsigned? negative body

end FacetSearch.Decimal

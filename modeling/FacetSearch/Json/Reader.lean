import FacetSearch.Json.Value
import FacetSearch.Number.Decimal

set_option autoImplicit false

/-! # Reading JSON

A reader for JSON texts as RFC 8259 has them, with a limit on nesting. Each reader takes the
characters that are left and gives back a value and what follows it. A string may name a character
outside the basic plane by a pair of escapes. Half a pair makes a value unreadable, and so do a number
out of range and nesting beyond the limit; the text around it is read all the same.

A number with a fraction or an exponent is read in steps that each round: its leading digits, as many
as 64 bits hold, and then one division or multiplication by a power of ten. So it may be a neighbour of
the nearest number. -/

namespace FacetSearch.Json

/-! ## Numbers -/

/-- A power of ten as a binary64 number. -/
def powerOfTen (n : Nat) : Binary64 := .ofRatio false (Nat.pow 10 n) 1

/-- Append digits to `n` as long as the result fits 64 bits; the digits that are left over. -/
def appendDigits (n : Nat) : List Char → Nat × List Char
  | [] => (n, [])
  | c :: rest =>
    let next := n * 10 + (Decimal.digit? c).getD 0
    if next ≤ Decimal.greatestWord then appendDigits next rest else (n, c :: rest)

/-- Divide by `10 ^ 308` until the rest of a negative exponent is within reach of one division. Two
    divisions take every 64-bit number to zero. -/
def scaleDown : Nat → Binary64 → Nat → Binary64
  | 0, x, _ => x
  | fuel + 1, x, n =>
    if n ≤ 308 then x / powerOfTen n else scaleDown fuel (x / powerOfTen 308) (n - 308)

/-- The number `significand · 10 ^ exponent`, infinite when it is out of range. -/
def scaleNumber (significand : Nat) (exponent : Int) : Binary64 :=
  let x := Binary64.ofNat significand
  if significand = 0 then x
  else if exponent > 308 then .infinite false
  else if exponent ≥ 0 then x * powerOfTen exponent.toNat
  else scaleDown 3 x (-exponent).toNat

/-- The number written by a sign, whole digits, fraction digits and an exponent. -/
def numeral (negative : Bool) (whole fraction : List Char) (exponent : Option Int) : Numeral :=
  let (head, dropped) := appendDigits 0 whole
  let withSign (x : Binary64) := if negative then -x else x
  if fraction.isEmpty && exponent.isNone && dropped.isEmpty then
    if !negative then .integer head
    else if head = 0 ∨ 0x8000000000000000 < head then .real (withSign (Binary64.ofNat head))
    else .integer (-(head : Int))
  else
    let (significand, rest) := appendDigits head fraction
    let power := (dropped.length : Int) - (fraction.length - rest.length) + exponent.getD 0
    .real (withSign (scaleNumber significand power))

/-- The exponent after an `e`: an optional sign and at least one digit. -/
def readExponent : List Char → Option (Option Int × List Char)
  | 'e' :: rest | 'E' :: rest =>
    let (sign, rest) := Decimal.leadingSign rest
    let (digits, rest) := Decimal.leadingDigits rest
    if digits.isEmpty then none
    else
      let n : Int := Decimal.value digits
      some (some (if sign = some true then -n else n), rest)
  | rest => some (none, rest)

/-- The digits after a point, at least one. -/
def readFraction : List Char → Option (List Char × List Char)
  | '.' :: rest =>
    let (digits, rest) := Decimal.leadingDigits rest
    if digits.isEmpty then none else some (digits, rest)
  | rest => some ([], rest)

/-- A number; its whole part is zero or does not begin with a zero. -/
def readNumber (text : List Char) : Option (Numeral × List Char) := do
  let (negative, rest) := match text with
    | '-' :: rest => (true, rest)
    | rest => (false, rest)
  let (whole, rest) := Decimal.leadingDigits rest
  if whole.isEmpty || (whole.head? == some '0' && whole.length > 1) then none
  else do
    let (fraction, rest) ← readFraction rest
    let (exponent, rest) ← readExponent rest
    some (numeral negative whole fraction exponent, rest)

/-! ## Strings -/

/-- The value of a hexadecimal digit. -/
def hexDigit? (c : Char) : Option Nat :=
  if '0' ≤ c ∧ c ≤ '9' then some (c.toNat - 48)
  else if 'a' ≤ c ∧ c ≤ 'f' then some (c.toNat - 87)
  else if 'A' ≤ c ∧ c ≤ 'F' then some (c.toNat - 55)
  else none

/-- Four hexadecimal digits. -/
def readHex4 : List Char → Option (Nat × List Char)
  | a :: b :: c :: d :: rest => do
    let a ← hexDigit? a
    let b ← hexDigit? b
    let c ← hexDigit? c
    let d ← hexDigit? d
    some (((a * 16 + b) * 16 + c) * 16 + d, rest)
  | _ => none

/-- The second half of a surrogate pair, with its escape. -/
def readLowHalf : List Char → Option (Nat × List Char)
  | '\\' :: 'u' :: rest =>
    (readHex4 rest).filter fun (unit, _) => 0xdc00 ≤ unit && unit ≤ 0xdfff
  | _ => none

/-- The character named by `\uXXXX`, or by two of them for a character outside the basic plane;
    `none` inside for half a pair. -/
def readUnicode (text : List Char) : Option (Option Char × List Char) := do
  let (unit, rest) ← readHex4 text
  if 0xdc00 ≤ unit ∧ unit ≤ 0xdfff then some (none, rest)
  else if 0xd800 ≤ unit ∧ unit ≤ 0xdbff then
    match readLowHalf rest with
    | some (low, rest) =>
      some (some (Char.ofNat (0x10000 + (unit - 0xd800) * 0x400 + (low - 0xdc00))), rest)
    | none => some (none, rest)
  else some (some (Char.ofNat unit), rest)

/-- The character that a one-letter escape stands for. -/
def simpleEscape? (c : Char) : Option Char :=
  if c = '"' ∨ c = '\\' ∨ c = '/' then some c
  else if c = 'b' then some (Char.ofNat 8)
  else if c = 'f' then some (Char.ofNat 12)
  else if c = 'n' then some '\n'
  else if c = 'r' then some '\r'
  else if c = 't' then some '\t'
  else none

/-- The rest of a string after its opening quote; `done` holds, in reverse, what was read, and
    nothing once half a pair has been met. -/
def readString : Nat → Option (List Char) → List Char → Option (Option String × List Char)
  | 0, _, _ => none
  | fuel + 1, done, text =>
    match text with
    | [] => none
    | '"' :: rest => some (done.map fun chars => String.ofList chars.reverse, rest)
    | '\\' :: 'u' :: rest => do
      let (c, rest) ← readUnicode rest
      readString fuel (done.bind fun chars => c.map (· :: chars)) rest
    | '\\' :: c :: rest => do
      let c ← simpleEscape? c
      readString fuel (done.map (c :: ·)) rest
    | c :: rest => if c.toNat < 32 then none else readString fuel (done.map (c :: ·)) rest

/-! ## Values -/

def isSpace (c : Char) : Bool := c = ' ' || c = '\n' || c = '\t' || c = '\r'

def skipSpace (text : List Char) : List Char := text.dropWhile isSpace

/-- The deepest nesting of arrays and objects that is read. -/
def maxNesting : Nat := 127

/-- A value that has `levels` levels of nesting left to it. -/
def within (levels : Nat) (value : Json) : Json := if levels = 0 then .unreadable else value

/-- An object, unless one of its names is unreadable. -/
def ofMembers (members : Option (List (String × Json))) : Json :=
  match members with
  | some members => .object members
  | none => .unreadable

mutual

/-- A value, with at most `levels` more levels of nesting. -/
def readValue : Nat → Nat → List Char → Option (Json × List Char)
  | 0, _, _ => none
  | fuel + 1, levels, text =>
    match skipSpace text with
    | 'n' :: 'u' :: 'l' :: 'l' :: rest => some (.null, rest)
    | 't' :: 'r' :: 'u' :: 'e' :: rest => some (.bool true, rest)
    | 'f' :: 'a' :: 'l' :: 's' :: 'e' :: rest => some (.bool false, rest)
    | '"' :: rest => do
      let (text, rest) ← readString (rest.length + 1) (some []) rest
      some ((text.map Json.string).getD .unreadable, rest)
    | '[' :: rest =>
      match skipSpace rest with
      | ']' :: rest => some (within levels (.array []), rest)
      | rest => do
        let (items, rest) ← readItems fuel (levels - 1) rest
        some (within levels (.array items), rest)
    | '\x7b' :: rest =>
      match skipSpace rest with
      | '\x7d' :: rest => some (within levels (.object []), rest)
      | rest => do
        let (members, rest) ← readMembers fuel (levels - 1) rest
        some (within levels (ofMembers members), rest)
    | rest => do
      let (n, rest) ← readNumber rest
      some (ofNumeral n, rest)

/-- The items of an array up to its closing bracket. -/
def readItems : Nat → Nat → List Char → Option (List Json × List Char)
  | 0, _, _ => none
  | fuel + 1, levels, text => do
    let (item, rest) ← readValue fuel levels text
    match skipSpace rest with
    | ']' :: rest => some ([item], rest)
    | ',' :: rest => do
      let (items, rest) ← readItems fuel levels rest
      some (item :: items, rest)
    | _ => none

/-- The members of an object up to its closing brace, unless a name is unreadable. -/
def readMembers : Nat → Nat → List Char → Option (Option (List (String × Json)) × List Char)
  | 0, _, _ => none
  | fuel + 1, levels, text => do
    match skipSpace text with
    | '"' :: rest => do
      let (name, rest) ← readString (rest.length + 1) (some []) rest
      match skipSpace rest with
      | ':' :: rest => do
        let (value, rest) ← readValue fuel levels rest
        match skipSpace rest with
        | '\x7d' :: rest => some (name.map fun name => [(name, value)], rest)
        | ',' :: rest => do
          let (members, rest) ← readMembers fuel levels rest
          some (name.bind fun name => members.map ((name, value) :: ·), rest)
        | _ => none
      | _ => none
    | _ => none

end

/-- The value that a whole text writes. -/
def parse? (text : String) : Option Json := do
  let chars := text.toList
  let (value, rest) ← readValue (2 * chars.length + 2) maxNesting chars
  if (skipSpace rest).isEmpty then some value else none

end FacetSearch.Json

import FacetSearch.Number.Binary64

set_option autoImplicit false

/-! # Shortest decimal text

The fewest decimal digits that read back as a number (`shortest`): of the decimals with `n` digits the
two neighbours of the value are tried for `n = 1, 2, …`, the first `n` with one inside the interval of
reals that round to the number wins, and of two hits the nearer one; where the value lies halfway
between them a `Tie` decides. Three layouts write such digits down: `plain` never uses an exponent and
rounds a tie up, `general` keeps a fraction part, has an exponent for small and large numbers and rounds
a tie to the even digit, `fixed` has a given number of places and rounds the exact value. -/

namespace FacetSearch.Binary64

/-! ## The digits -/

/-- The decimal digits of a natural number. -/
def decimalDigits (n : Nat) : List Char := Nat.toDigits 10 n

/-- The position of the first digit of `units`: `p` where `10 ^ (p - 1) ≤ value < 10 ^ p`. No
    positive number is below `10 ^ -330`. -/
def leadingPosition (units : Nat) : Int :=
  (decimalDigits (units * Nat.pow 10 330 / one)).length - 330

/-- Whether `num / den` units lie where numbers round to `units`. The ends are inside when the
    number is even, and the lower half of the interval is shorter below a power of two. -/
def roundsTo (units num den : Nat) : Bool :=
  let step := Nat.pow 2 (bitLength units - 53)
  let even := units / step % 2 = 0
  let lower := if units / step = leadingBit ∧ 1 < step then step else 2 * step
  let low := (4 * units - lower) * den
  let high := (4 * units + 2 * step) * den
  let point := 4 * num
  if even then low ≤ point && point ≤ high else low < point && point < high

/-- A decimal `digits · 10 ^ exponent` as a quotient in units. -/
def decimalUnits (digits : Nat) (exponent : Int) : Nat × Nat :=
  if exponent ≥ 0 then (digits * Nat.pow 10 exponent.toNat * one, 1)
  else (digits * one, Nat.pow 10 (-exponent).toNat)

/-- What becomes of a value that lies halfway between two decimals. -/
inductive Tie where
  /-- The larger one is taken. -/
  | up
  /-- The one with an even last digit is taken. -/
  | even
deriving DecidableEq, Repr

/-- The decimal for a value halfway between `below` and the next one. -/
def Tie.choose (tie : Tie) (below : Nat) : Nat :=
  match tie with
  | up => below + 1
  | even => below + below % 2

/-- The decimal with last digit at `10 ^ exponent` that is inside the interval of `units` and
    nearest to it. -/
def nearestDecimal (tie : Tie) (units : Nat) (exponent : Int) : Option Nat :=
  let (unit, den) := decimalUnits 1 exponent
  let below := units * den / unit
  let rest := units * den % unit
  let downFits := 0 < below && roundsTo units (below * unit) den
  let upFits := roundsTo units ((below + 1) * unit) den
  if downFits && upFits then
    if 2 * rest < unit then some below
    else if unit < 2 * rest then some (below + 1)
    else some (tie.choose below)
  else if downFits then some below
  else if upFits then some (below + 1)
  else none

/-- The first decimal found with `tried + 1`, `tried + 2`, … digits. -/
def shortestFrom (tie : Tie) (units : Nat) (position : Int) : Nat → Nat → Nat × Int
  | 0, tried => (0, position - tried)
  | fuel + 1, tried =>
    let exponent := position - (tried + 1 : Nat)
    match nearestDecimal tie units exponent with
    | some digits => (digits, exponent)
    | none => shortestFrom tie units position fuel (tried + 1)

/-- The digits of the shortest decimal that reads back as `units`, without zeros at the end, and the
    position of the point: the value is `0.d₁d₂… · 10 ^ position`. -/
def shortest (tie : Tie) (units : Nat) : List Char × Int :=
  if units = 0 then (['0'], 1)
  else
    let (digits, exponent) := shortestFrom tie units (leadingPosition units) 17 0
    let written := decimalDigits digits
    ((written.reverse.dropWhile (· = '0')).reverse, exponent + written.length)

/-! ## Layouts -/

/-- Digits around a point that stands after `position` of them, without exponent; zeros fill up. -/
def positional (digits : List Char) (position : Int) : List Char :=
  if position ≤ 0 then '0' :: '.' :: List.replicate (-position).toNat '0' ++ digits
  else if digits.length ≤ position then
    digits ++ List.replicate (position.toNat - digits.length) '0'
  else digits.take position.toNat ++ '.' :: digits.drop position.toNat

def signChars (negative : Bool) : List Char := if negative then ['-'] else []

/-- Shortest digits, never an exponent and no point behind a whole number. A whole number below
    `2 ^ 53` is its own shortest decimal. -/
def plain : Binary64 → String
  | .nan => "NaN"
  | .infinite negative => if negative then "-inf" else "inf"
  | .finite negative units =>
    if units % one = 0 ∧ units / one < 2 * leadingBit then
      String.ofList (signChars negative ++ decimalDigits (units / one))
    else
      let (digits, position) := shortest .up units
      String.ofList (signChars negative ++ positional digits position)

/-- Shortest digits with a signed exponent below `10 ^ -5` and from `10 ^ 16` on; in between a whole
    number ends in `.0`. What is not finite has no such text. -/
def general : Binary64 → String
  | .finite negative units =>
    let (digits, position) := shortest .even units
    let body :=
      if -5 < position ∧ position ≤ 16 then
        let written := positional digits position
        if written.contains '.' then written else written ++ ['.', '0']
      else
        let head := digits.take 1
        let tail := digits.drop 1
        let power := position - 1
        head ++ (if tail.isEmpty then [] else '.' :: tail)
          ++ 'e' :: (if power < 0 then '-' else '+') :: decimalDigits power.natAbs
    String.ofList (signChars negative ++ body)
  | _ => "null"

/-- The exact value rounded to `places` decimals, a half going to the even neighbour; what rounds to
    zero has no sign. -/
def fixed (places : Nat) : Binary64 → String
  | .finite negative units =>
    let scale := Nat.pow 10 places
    let scaled := roundRatio (units * scale) one
    let whole := decimalDigits (scaled / scale)
    let part := decimalDigits (scaled % scale)
    String.ofList (signChars (negative && scaled != 0) ++ whole ++ '.'
      :: List.replicate (places - part.length) '0' ++ part)
  | x => x.plain

end FacetSearch.Binary64

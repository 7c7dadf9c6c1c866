import FacetSearch.Number.Decimal
import FacetSearch.Tile.Error

set_option autoImplicit false

/-! # Chronological tiles

An interval of years before present is a point `(earliest, latest)` of the square `[0, bound]²`. A
`Box` is a rectangle of such points; each `Move` halves it along both axes and says which of its two
edges moved inward:

| digit | ancient edge moves | recent edge moves |
|-------|--------------------|-------------------|
| `0`   | yes                | no                |
| `1`   | no                 | no                |
| `2`   | yes                | yes               |
| `3`   | no                 | yes               |

A path is the digits of the moves toward a point, possibly after a magnitude such as `10m-` that takes
the place of the default bound. Reading a path replays its moves. -/

namespace FacetSearch.Chronology

/-! ## Moves -/

/-- One halving of a box along both axes. -/
structure Move where
  /-- The ancient edge moves: the more recent half of the early axis is kept. -/
  ancient : Bool
  /-- The recent edge moves: the more ancient half of the late axis is kept. -/
  recent : Bool
deriving DecidableEq, Repr

def Move.digit : Move → Char
  | ⟨true, false⟩ => '0'
  | ⟨false, false⟩ => '1'
  | ⟨true, true⟩ => '2'
  | ⟨false, true⟩ => '3'

def Move.ofDigit? (c : Char) : Option Move :=
  if c = '0' then some ⟨true, false⟩
  else if c = '1' then some ⟨false, false⟩
  else if c = '2' then some ⟨true, true⟩
  else if c = '3' then some ⟨false, true⟩
  else none

/-! ## Boxes -/

/-- The whole numbers from `lo` on and below `hi`. -/
structure Axis where
  lo : Int
  hi : Int
deriving DecidableEq, Repr

namespace Axis

def width (a : Axis) : Int := a.hi - a.lo
def mid (a : Axis) : Int := a.lo + a.width / 2
def lower (a : Axis) : Axis := ⟨a.lo, a.mid⟩
def upper (a : Axis) : Axis := ⟨a.mid, a.hi⟩

end Axis

/-- The points with their earliest value on one axis and their latest value on another. -/
structure Box where
  early : Axis
  late : Axis
deriving DecidableEq, Repr

namespace Box

/-- The square that a path with bound `bound` starts from. -/
def square (bound : Int) : Box := ⟨⟨0, bound + 1⟩, ⟨0, bound + 1⟩⟩

/-- The quarter of the box that a move leads to. -/
def step (b : Box) (m : Move) : Box where
  early := if m.ancient then b.early.lower else b.early.upper
  late := if m.recent then b.late.upper else b.late.lower

/-- The move toward a point. -/
def moveToward (b : Box) (earliest latest : Int) : Move where
  ancient := earliest < b.early.mid
  recent := b.late.mid ≤ latest

/-- Neither axis has run out of points. -/
def inhabited (b : Box) : Bool := 1 ≤ b.early.width && 1 ≤ b.late.width

/-- The box is a single point. -/
def settled (b : Box) : Bool := b.early.width ≤ 1 && b.late.width ≤ 1

/-- The moves toward a point until the box settles, at most `fuel` of them. -/
def movesToward (earliest latest : Int) : Nat → Box → List Move
  | 0, _ => []
  | fuel + 1, b =>
    if b.settled then []
    else
      let m := b.moveToward earliest latest
      m :: movesToward earliest latest fuel (b.step m)

/-- The box that digits lead to, or why they lead nowhere. -/
def replay : Box → List Char → Except TileError.BadPath Box
  | b, [] => .ok b
  | b, c :: rest =>
    match Move.ofDigit? c with
    | none => .error (.notADigit c)
    | some m => if (b.step m).inhabited then (b.step m).replay rest else .error .tooNarrow

end Box

/-! ## Magnitudes -/

/-- The bound of a path without magnitude. -/
def defaultBound : Int := 10000000

/-- The most digits of a path. -/
def maxDigits : Nat := 32

/-- The largest bound that a magnitude may name. -/
def maxBound : Int := 1000000000000000

/-- The factor that a unit letter stands for. -/
def unitFactor? (c : Char) : Option Nat :=
  if c = 'k' then some 1000 else if c = 'm' then some 1000000
  else if c = 'g' then some 1000000000 else none

/-- The bound that a magnitude such as `10m`, `2.5K` or `1g` names, in whole years. -/
def magnitude (raw : String) : Except TileError Int :=
  let lowered := (Text.trim raw).toLower.toList
  match lowered.getLast?.bind unitFactor? with
  | none => .error (.unrecognizedMagnitude raw .noUnit)
  | some factor =>
    match Decimal.binary64? (String.ofList lowered.dropLast) with
    | none => .error (.unrecognizedMagnitude raw .noNumber)
    | some x =>
      match (x * Binary64.ofNat factor).round.truncate? with
      | none => .error (.unrecognizedMagnitude raw .unsupported)
      | some bound =>
        if 1 ≤ bound ∧ bound ≤ maxBound then .ok bound
        else .error (.unrecognizedMagnitude raw .unsupported)

/-! ## Paths -/

/-- A magnitude as given for writing: without white space around it and dashes behind it. -/
def bareMagnitude (raw : String) : String :=
  String.ofList (((Text.trim raw).toList.reverse.dropWhile (· = '-')).reverse)

/-- The bound that a bare magnitude stands for; an empty one stands for the default. -/
def boundFor (bare : String) : Except TileError Int :=
  if bare.isEmpty then .ok defaultBound else magnitude bare

/-- The path of an interval, given by its two ends in either order. -/
def encode (earliest latest : Int) (raw : String) : Except TileError String := do
  let bare := bareMagnitude raw
  let bound ← boundFor bare
  let early := max earliest latest
  let late := min earliest latest
  if late < 0 ∨ bound < early then
    throw (.outOfRange (.interval early late bound))
  let digits := ((Box.square bound).movesToward early late maxDigits).map Move.digit
  let lead := if bare.isEmpty then [] else bare.toLower.toList ++ ['-']
  return String.ofList (lead ++ digits)

/-- What a path covers. -/
structure Span where
  /-- The most ancient value. -/
  earliest : Int
  /-- The most recent value. -/
  latest : Int
  /-- The bound that the path's magnitude implies. -/
  bound : Int
deriving DecidableEq, Repr

/-- The bound of a path and its digits, after the white space around it is dropped. -/
def split (path : String) : Except TileError (Int × String) :=
  let trimmed := Text.trim path
  match Text.splitFirst "-" trimmed with
  | some (lead, digits) => (magnitude lead).map fun bound => (bound, digits)
  | none => .ok (defaultBound, trimmed)

/-- The span that a path covers. The length of the digits is counted in octets. -/
def decode (path : String) : Except TileError Span := do
  let (bound, digits) ← split path
  if digits.utf8ByteSize > maxDigits then
    throw (.invalidPath path (.tooManyDigits maxDigits))
  match (Box.square bound).replay digits.toList with
  | .error why => throw (.invalidPath path why)
  | .ok b => return { earliest := b.early.hi - 1, latest := b.late.lo, bound }

/-! ## Calendar years -/

/-- The year that before-present values count back from. -/
def presentYear : Int := 1950

/-- A signed 64-bit number, where what is too large or too small wraps around. -/
def wrap64 (n : Int) : Int := Int.bmod n UInt64.size

/-- The before-present value of a calendar year, as a signed 64-bit number. -/
def ofYear (year : Int) : Int := wrap64 (presentYear - year)

/-- The calendar year of a before-present value. -/
def toYear (value : Int) : Int := presentYear - value

/-- The path of an interval of calendar years, which are negative before the common era. -/
def encodeYears (earliest latest : Int) (raw : String) : Except TileError String :=
  encode (ofYear earliest) (ofYear latest) raw

def Span.earliestYear (s : Span) : Int := toYear s.earliest
def Span.latestYear (s : Span) : Int := toYear s.latest

end FacetSearch.Chronology

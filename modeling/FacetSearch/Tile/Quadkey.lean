import FacetSearch.Text.Blank
import FacetSearch.Tile.Error

set_option autoImplicit false

/-! # Quadkeys

Tiles of the world in the spherical Mercator projection. At zoom `z` the map has `2 ^ z` columns and
as many rows; a tile is a column `x` and a row `y`, and its quadkey interleaves their binary digits
from the highest down: each digit is a bit of `x` plus twice the same bit of `y`. So the quadkey of a
tile begins with the quadkeys of the tiles that contain it. -/

namespace FacetSearch.Quadkey

def maxZoom : Nat := 30

/-! ## Digits -/

/-- The digit for one bit of the column and one bit of the row. -/
def digit (column row : Bool) : Char :=
  match column, row with
  | false, false => '0'
  | true, false => '1'
  | false, true => '2'
  | true, true => '3'

/-- The bits of the column and of the row that a digit stands for. -/
def bits? (c : Char) : Option (Bool × Bool) :=
  if c = '0' then some (false, false)
  else if c = '1' then some (true, false)
  else if c = '2' then some (false, true)
  else if c = '3' then some (true, true)
  else none

/-- The digits of a tile, for the bits below `zoom` from the highest down. -/
def digits (x y : Nat) : Nat → List Char
  | 0 => []
  | level + 1 => digit (x.testBit level) (y.testBit level) :: digits x y level

/-- Follow digits from the tile `(x, y)` to one of the tiles inside it, or name the first character
    that is no digit. -/
def descend (x y : Nat) : List Char → Except Char (Nat × Nat)
  | [] => .ok (x, y)
  | c :: rest =>
    match bits? c with
    | none => .error c
    | some (column, row) => descend (2 * x + column.toNat) (2 * y + row.toNat) rest

/-! ## Projection -/

/-- The number of columns, and of rows, that the map has at a zoom. -/
def sizeAt (zoom : Nat) : Nat := Nat.pow 2 zoom

/-- Half the turn of a circle of radius one. -/
def pi : Float := 3.141592653589793

/-- The latitude where the square map ends. -/
def maxLatitude : Binary64 := .ofRatio false 8505112878 100000000

/-- The fraction of the map's width that lies west of a longitude. -/
def columnFraction (lon : Binary64) : Binary64 := (lon + 180) / 360

/-- The fraction of the map's height that lies north of a latitude. -/
def rowFraction (lat : Binary64) : Binary64 :=
  let s := (lat.toFloat * (pi / 180)).sin
  .ofFloat (0.5 - ((1 + s) / (1 - s)).log / (4 * pi))

/-- The column or row at a fraction of a map of `size` tiles. -/
def tileAt (fraction : Binary64) (size : Nat) : Nat :=
  match (fraction * Binary64.ofNat size).floor.truncate? with
  | none => 0
  | some n => min n.toNat (size - 1)

/-- The latitude of the upper edge of row `y` among `size` rows. -/
def latitude (y size : Nat) : Binary64 :=
  let north := pi * (1 - 2 * (Binary64.ofNat y).toFloat / (Binary64.ofNat size).toFloat)
  .ofFloat (north.sinh.atan * (180 / pi))

/-- The longitude of the left edge of column `x` among `size` columns. -/
def longitude (x size : Nat) : Binary64 :=
  Binary64.ofNat x / Binary64.ofNat size * 360 - 180

/-! ## Points and boxes -/

/-- The quadkey of the tile at `zoom` that a point in degrees lies in. Points beyond the edge of the
    map belong to its outermost row. -/
def encode (lat lon : Binary64) (zoom : Nat) : Except TileError String := do
  if maxZoom < zoom then throw (.outOfRange (.zoom zoom maxZoom))
  if !((-90 : Binary64).le lat && lat.le 90 && (-180 : Binary64).le lon && lon.le 180) then
    throw (.outOfRange (.coordinate lat lon))
  let inside := if lat.lt (-maxLatitude) then -maxLatitude
    else if maxLatitude.lt lat then maxLatitude else lat
  let size := sizeAt zoom
  let x := tileAt (columnFraction lon) size
  let y := tileAt (rowFraction inside) size
  return String.ofList (digits x y zoom)

/-- A box on the map, in degrees. -/
structure Bounds where
  minLat : Binary64
  maxLat : Binary64
  minLon : Binary64
  maxLon : Binary64
deriving DecidableEq, Repr

namespace Bounds

def center (b : Bounds) : Binary64 × Binary64 :=
  ((b.minLat + b.maxLat) / 2, (b.minLon + b.maxLon) / 2)

/-- The point lies in the box or on its edge. -/
def contains (b : Bounds) (lat lon : Binary64) : Bool :=
  b.minLat.le lat && lat.le b.maxLat && b.minLon.le lon && lon.le b.maxLon

end Bounds

/-- The box that the tile `(x, y)` covers among `size` columns and rows. -/
def tileBounds (x y size : Nat) : Bounds where
  minLat := latitude (y + 1) size
  maxLat := latitude y size
  minLon := longitude x size
  maxLon := longitude (x + 1) size

/-- The tile of a quadkey as its zoom, column and row. The length is counted in octets. -/
def tile (quadkey : String) : Except TileError (Nat × Nat × Nat) := do
  let key := Text.trim quadkey
  if key.utf8ByteSize > maxZoom then throw (.invalidPath key (.tooDeepZoom maxZoom))
  match descend 0 0 key.toList with
  | .error c => throw (.invalidPath key (.notADigit c))
  | .ok (x, y) => return (key.length, x, y)

/-- The box that a quadkey covers. -/
def decode (quadkey : String) : Except TileError Bounds := do
  let (zoom, x, y) ← tile quadkey
  return tileBounds x y (sizeAt zoom)

end FacetSearch.Quadkey

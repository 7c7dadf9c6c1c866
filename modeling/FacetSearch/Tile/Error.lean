import FacetSearch.Number.Shortest

set_option autoImplicit false

/-! # Tile errors

Why a tile path or a quadkey cannot be written or read: what was asked for does not fit the tile space,
the path is no path, or its magnitude prefix is none. -/

namespace FacetSearch

/-- What lies outside the tile space. -/
inductive TileError.Outside where
  | interval (earliest latest bound : Int)
  | zoom (level greatest : Nat)
  | coordinate (lat lon : Binary64)
deriving DecidableEq, Repr

/-- Why a text is no path. -/
inductive TileError.BadPath where
  | tooManyDigits (greatest : Nat)
  | tooDeepZoom (greatest : Nat)
  | notADigit (c : Char)
  | tooNarrow
deriving DecidableEq, Repr

/-- Why a text is no magnitude. -/
inductive TileError.BadMagnitude where
  | noUnit
  | noNumber
  | unsupported
deriving DecidableEq, Repr

inductive TileError where
  | outOfRange (what : TileError.Outside)
  | invalidPath (path : String) (why : TileError.BadPath)
  | unrecognizedMagnitude (raw : String) (why : TileError.BadMagnitude)
deriving DecidableEq, Repr

namespace TileError

def Outside.message : Outside → String
  | .interval earliest latest bound => s!"interval {earliest}..{latest} exceeds [0, {bound}]"
  | .zoom level greatest => s!"zoom {level} exceeds {greatest}"
  | .coordinate lat lon => s!"({lat.plain}, {lon.plain}) is not a valid coordinate"

def BadPath.message (path : String) : BadPath → String
  | .tooManyDigits greatest => s!"'{path}' is deeper than {greatest} digits"
  | .tooDeepZoom greatest => s!"'{path}' is deeper than zoom {greatest}"
  | .notADigit c => s!"'{path}' contains '{c}'"
  | .tooNarrow => s!"'{path}' narrows past the precision floor"

def BadMagnitude.message (raw : String) : BadMagnitude → String
  | .noUnit => s!"'{raw}' must end with k, m or g"
  | .noNumber => s!"'{raw}' has no usable magnitude"
  | .unsupported => s!"'{raw}' is outside the supported magnitudes"

def message : TileError → String
  | .outOfRange what => s!"Out of range: {what.message}"
  | .invalidPath path why => s!"Invalid tile path: {why.message path}"
  | .unrecognizedMagnitude raw why => s!"Unrecognized tile prefix: {why.message raw}"

end TileError

end FacetSearch

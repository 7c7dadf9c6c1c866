import FacetSearch.Compilation.Compiler
import FacetSearch.Index.Reply
import FacetSearch.Navigation.Link
import FacetSearch.Navigation.Page
import FacetSearch.Tile.Histogram

set_option autoImplicit false

/-! # Facets of tiles

Tile keys are cut to a depth and counted together. The depth lies below every tile that is filtered on,
so that drilling in always shows finer tiles. Intervals of time come in the order of their earliest
year, broad ones first; areas in the order of their keys. -/

namespace FacetSearch

/-- The depth to cut keys to: what is asked for, but one digit below the deepest of `active` and no
    deeper than `deepest`. -/
def effectiveDepth (asked : Nat) (active : List String) (deepest : Nat) : Nat :=
  let below := (active.map fun value => Histogram.depth (Text.trim value)).foldl max 0
  min (max asked (below + 1)) deepest

/-- A link that narrows the result to a tile. -/
def tileLink (l : Links) (params : Params) (space : TileSpace) (key : String) : String :=
  l.filterLink (params.withSingle (Parameter.tile space).name key)

/-- Counts by key, in the order of keys. -/
def tileCounts (counts : List FacetCount) (depth : Nat) : List (String × UInt64) :=
  (Histogram.aggregate (counts.map fun c => (c.value, c.count)) depth).toList

def chronoOption? (l : Links) (params : Params) (key : String) (count : UInt64) :
    Option ChronoOption :=
  match Chronology.decode key with
  | .ok span => some {
      key, count, earliestYear := span.earliestYear, latestYear := span.latestYear
      link := tileLink l params .chrono key }
  | .error _ => none

/-- Ancient intervals come first, then broad ones, then by key. -/
def ChronoOption.before (a b : ChronoOption) : Bool :=
  a.earliestYear < b.earliestYear || (a.earliestYear = b.earliestYear
    && (b.latestYear < a.latestYear || (a.latestYear = b.latestYear && a.key ≤ b.key)))

/-- The facet of intervals; keys that are no paths are left out. -/
def chronoFacet (l : Links) (params : Params) (counts : List FacetCount) (depth : Nat) :
    TileFacet ChronoOption where
  field := Compiler.tileField .chrono
  parameter := (Parameter.tile .chrono).name
  depth := depth
  options := ((tileCounts counts depth).filterMap fun (key, count) =>
    chronoOption? l params key count).mergeSort ChronoOption.before

def geoOption? (l : Links) (params : Params) (key : String) (count : UInt64) : Option GeoOption :=
  match Quadkey.decode key with
  | .ok bounds => some { key, count, bounds, link := tileLink l params .geo key }
  | .error _ => none

/-- The facet of areas; keys that are no quadkeys are left out. -/
def geoFacet (l : Links) (params : Params) (counts : List FacetCount) (depth : Nat) :
    TileFacet GeoOption where
  field := Compiler.tileField .geo
  parameter := (Parameter.tile .geo).name
  depth := depth
  options := (tileCounts counts depth).filterMap fun (key, count) => geoOption? l params key count

end FacetSearch

import FacetSearch.Compilation.Query
import FacetSearch.Index.Request
import FacetSearch.Tile.Quadkey

set_option autoImplicit false

/-! # Result pages

A page of results with everything that can be done from it: turn the page, sort, take filters back and
narrow the result by facets, each as a link. As JSON, what is absent is left out. -/

namespace FacetSearch

/-! ## Facets -/

/-- A value of a facet of entities. -/
structure FacetOption where
  slug : String
  label : String
  uri : String := ""
  count : UInt64
  link : String
deriving DecidableEq, Repr

/-- Options whose own values are of one kind. -/
structure OptionGroup where
  kind : DataKind
  options : List FacetOption
deriving DecidableEq, Repr

structure EntityFacet where
  field : String
  parameter : String
  label : String
  groups : List OptionGroup
deriving DecidableEq, Repr

/-- A part of a range. -/
structure RangeOption where
  label : String
  low : String
  high : String
  count : UInt64
  link : String
deriving DecidableEq, Repr

structure RangeOptions where
  field : String
  parameter : String
  label : String
  kind : RangeKind
  options : List RangeOption
deriving DecidableEq, Repr

/-- An interval of time. -/
structure ChronoOption where
  key : String
  count : UInt64
  earliestYear : Int
  latestYear : Int
  link : String
deriving DecidableEq, Repr

/-- An area on the map. -/
structure GeoOption where
  key : String
  count : UInt64
  bounds : Quadkey.Bounds
  link : String

/-- Tiles, cut to keys with at most `depth` digits. -/
structure TileFacet (α : Type) where
  field : String
  parameter : String
  depth : Nat
  options : List α

/-! ## Filters, pages and order -/

structure ActiveFilter where
  parameter : String
  value : String
  label : String
  /-- The request without the filter. -/
  removal : String
  /-- The request with the filter one level wider, if it has several levels. -/
  broadening : Option String
deriving DecidableEq, Repr

/-- Links to other pages; absent where they would lead to the same page or past the results. -/
structure Paging where
  first : Option String := none
  previous : Option String := none
  next : Option String := none
  last : Option String := none
deriving DecidableEq, Repr

structure SortOption where
  key : String
  label : String
  order : SortOrder
  link : Option String
deriving DecidableEq, Repr

/-- What the results are sorted by and how else they could be. -/
structure SortChoices where
  active : List SortOption
  options : List SortOption
deriving DecidableEq, Repr

/-! ## Pages -/

structure ResultPage where
  /-- A link to the page itself. -/
  id : String
  total : Nat
  start : Nat
  rows : Nat
  paging : Paging
  sort : SortChoices
  filters : List ActiveFilter
  facets : List EntityFacet
  ranges : List RangeOptions
  chrono : Option (TileFacet ChronoOption)
  geo : Option (TileFacet GeoOption)
  records : List Json
  unresolved : List String
  rejected : List RejectedFilter

/-! ## JSON -/

def FacetOption.toJson (o : FacetOption) : Json :=
  .object [("slug", .string o.slug), ("label", .string o.label), ("uri", .string o.uri),
    ("count", .ofNat o.count.toNat), ("link", .string o.link)]

def OptionGroup.toJson (g : OptionGroup) : Json :=
  .object [("kind", .string g.kind.suffix), ("options", .array (g.options.map (·.toJson)))]

def EntityFacet.toJson (f : EntityFacet) : Json :=
  .object [("field", .string f.field), ("parameter", .string f.parameter),
    ("label", .string f.label), ("groups", .array (f.groups.map (·.toJson)))]

def RangeOption.toJson (o : RangeOption) : Json :=
  .object [("label", .string o.label), ("low", .string o.low), ("high", .string o.high),
    ("count", .ofNat o.count.toNat), ("link", .string o.link)]

def RangeOptions.toJson (f : RangeOptions) : Json :=
  .object [("field", .string f.field), ("parameter", .string f.parameter),
    ("label", .string f.label), ("kind", .string f.kind.name),
    ("options", .array (f.options.map (·.toJson)))]

def ChronoOption.toJson (o : ChronoOption) : Json :=
  .object [("key", .string o.key), ("count", .ofNat o.count.toNat),
    ("earliest_year", .number (.integer o.earliestYear)),
    ("latest_year", .number (.integer o.latestYear)), ("link", .string o.link)]

def Quadkey.Bounds.toJson (b : Quadkey.Bounds) : Json :=
  .object [("min_lat", .number (.real b.minLat)), ("max_lat", .number (.real b.maxLat)),
    ("min_lon", .number (.real b.minLon)), ("max_lon", .number (.real b.maxLon))]

def GeoOption.toJson (o : GeoOption) : Json :=
  .object [("key", .string o.key), ("count", .ofNat o.count.toNat), ("bbox", o.bounds.toJson),
    ("link", .string o.link)]

def TileFacet.toJson {α : Type} (write : α → Json) (f : TileFacet α) : Json :=
  .object [("field", .string f.field), ("parameter", .string f.parameter),
    ("depth", .ofNat f.depth), ("options", .array (f.options.map write))]

def ActiveFilter.toJson (f : ActiveFilter) : Json :=
  .object ([("parameter", .string f.parameter), ("value", .string f.value),
      ("label", .string f.label), ("removal_link", .string f.removal)]
    ++ Json.dropNulls [("broaden_link", Json.ofOption Json.string f.broadening)])

def Paging.toJson (p : Paging) : Json :=
  .object (Json.dropNulls [("first", Json.ofOption Json.string p.first),
    ("previous", Json.ofOption Json.string p.previous), ("next", Json.ofOption Json.string p.next),
    ("last", Json.ofOption Json.string p.last)])

def SortOption.toJson (o : SortOption) : Json :=
  .object ([("key", .string o.key), ("label", .string o.label), ("order", .string o.order.name)]
    ++ Json.dropNulls [("link", Json.ofOption Json.string o.link)])

def SortChoices.toJson (s : SortChoices) : Json :=
  .object [("active", .array (s.active.map (·.toJson))),
    ("options", .array (s.options.map (·.toJson)))]

def RejectedFilter.toJson (r : RejectedFilter) : Json :=
  .object [("parameter", .string r.parameter), ("value", .string r.value),
    ("reason", .string r.reason)]

def ResultPage.toJson (p : ResultPage) : Json :=
  .object ([
      ("id", .string p.id),
      ("total", .ofNat p.total),
      ("start", .ofNat p.start),
      ("rows", .ofNat p.rows),
      ("paging", p.paging.toJson),
      ("sort", p.sort.toJson),
      ("active_filters", .array (p.filters.map (·.toJson))),
      ("facets", .array (p.facets.map (·.toJson))),
      ("range_facets", .array (p.ranges.map (·.toJson)))]
    ++ Json.dropNulls [
      ("chrono_tiles", Json.ofOption (TileFacet.toJson ChronoOption.toJson) p.chrono),
      ("geo_tiles", Json.ofOption (TileFacet.toJson GeoOption.toJson) p.geo)]
    ++ [
      ("records", .array p.records),
      ("unresolved", .strings p.unresolved),
      ("rejected_filters", .array (p.rejected.map (·.toJson)))])

end FacetSearch

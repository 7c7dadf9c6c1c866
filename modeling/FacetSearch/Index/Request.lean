import Std.Data.ExtTreeSet
import FacetSearch.Index.Point
import FacetSearch.Json.Record

set_option autoImplicit false

/-! # Index requests

A structured query for a faceted index, and its rendering as the form parameters of a Solr `select`
call. Sections without content are left out, and fields come in the order of their names. -/

namespace FacetSearch

/-! ## Order -/

inductive SortOrder where
  | asc
  | desc
deriving DecidableEq, Repr

namespace SortOrder

def name : SortOrder → String
  | asc => "asc"
  | desc => "desc"

/-- An order by name, in any case and with white space around it. -/
def parse? (text : String) : Option SortOrder :=
  let name := (Text.trim text).toLower
  if name = "asc" then some asc else if name = "desc" then some desc else none

def reversed : SortOrder → SortOrder
  | asc => desc
  | desc => asc

end SortOrder

/-- A field to sort by. -/
structure SortSpec where
  field : String
  order : SortOrder
deriving DecidableEq, Repr

/-! ## Requests -/

/-- A range facet of one field, in index syntax. -/
structure RangeRequest where
  kind : RangeKind
  start : String
  stop : String
  gap : String
  /-- Buckets come in the order of their values and not of their counts. -/
  sortByIndex : Bool := true
deriving DecidableEq, Repr

/-- The query that matches every document. -/
def matchAll : String := "*:*"

structure IndexRequest where
  /-- The main query; filters narrow it further. -/
  query : String := matchAll
  filterClauses : List String := []
  facetFields : Std.ExtTreeSet String := ∅
  statsFields : Std.ExtTreeSet String := ∅
  rangeRequests : Std.ExtTreeMap String RangeRequest := ∅
  highlightQueries : List String := []
  returnFields : List String := []
  sort : List SortSpec := []
  rows : Nat := 0
  start : Nat := 0
  /-- The smallest count of a facet value that is returned. -/
  facetMinCount : Nat := 1
  /-- The most values of a facet; `-1` for no limit. -/
  facetLimit : Int := -1

namespace IndexRequest

/-! ## Form parameters -/

def hasFacets (r : IndexRequest) : Bool := !r.facetFields.isEmpty || !r.rangeRequests.isEmpty

/-- The parameters of one range facet. -/
def rangeParams (field : String) (range : RangeRequest) : List (String × String) :=
  [("facet.range", field),
    ("f." ++ field ++ ".facet.range.start", range.start),
    ("f." ++ field ++ ".facet.range.end", range.stop),
    ("f." ++ field ++ ".facet.range.gap", range.gap)]
    ++ if range.sortByIndex then [("f." ++ field ++ ".facet.sort", "index")] else []

/-- Parameters that are sent only when there is something to say. -/
def section? (present : Bool) (params : List (String × String)) : List (String × String) :=
  if present then params else []

/-- The request as form parameters of a `select` call. -/
def toSolrParams (r : IndexRequest) : List (String × String) :=
  [("q", r.query)]
    ++ r.filterClauses.map (fun clause => ("fq", clause))
    ++ section? r.hasFacets [("facet", "true"), ("facet.mincount", toString r.facetMinCount),
      ("facet.limit", toString r.facetLimit)]
    ++ r.facetFields.toList.map (fun field => ("facet.field", field))
    ++ r.rangeRequests.toList.flatMap (fun (field, range) => rangeParams field range)
    ++ section? (!r.statsFields.isEmpty) [("stats", "true")]
    ++ r.statsFields.toList.map (fun field => ("stats.field", field))
    ++ section? (!r.highlightQueries.isEmpty)
      [("hl", "true"), ("hl.q", " ".intercalate r.highlightQueries)]
    ++ section? (!r.returnFields.isEmpty) [("fl", ",".intercalate r.returnFields)]
    ++ section? (!r.sort.isEmpty)
      [("sort", ", ".intercalate (r.sort.map fun spec => spec.field ++ " " ++ spec.order.name))]
    ++ [("rows", toString r.rows), ("start", toString r.start), ("wt", "json")]

end IndexRequest

/-! ## JSON -/

def RangeKind.ofJson? (value : Json) : Option RangeKind := value.choice?.bind RangeKind.ofName?

/-- An order as a record field, where only the two plain names are known. -/
def SortOrder.ofJson? (value : Json) : Option SortOrder :=
  value.choice?.bind fun name =>
    if name = "asc" then some .asc else if name = "desc" then some .desc else none

def RangeRequest.ofJson? (value : Json) : Option RangeRequest := do
  let r ← value.record? ["kind", "start", "end", "gap", "sort_by_index"]
  return {
    kind := ← r.required "kind" RangeKind.ofJson?
    start := ← r.required "start" Json.string?
    stop := ← r.required "end" Json.string?
    gap := ← r.required "gap" Json.string?
    sortByIndex := ← r.withDefault "sort_by_index" true Json.bool? }

def RangeRequest.toJson (r : RangeRequest) : Json :=
  .object [("kind", .string r.kind.name), ("start", .string r.start), ("end", .string r.stop),
    ("gap", .string r.gap), ("sort_by_index", .bool r.sortByIndex)]

def SortSpec.ofJson? (value : Json) : Option SortSpec := do
  let r ← value.record? ["field", "order"]
  return {
    field := ← r.required "field" Json.string?
    order := ← r.required "order" SortOrder.ofJson? }

def SortSpec.toJson (s : SortSpec) : Json :=
  .object [("field", .string s.field), ("order", .string s.order.name)]

namespace IndexRequest

def stringSet? (value : Json) : Option (Std.ExtTreeSet String) :=
  (value.list? Json.string?).map fun names => Std.ExtTreeSet.ofList names

def strings? : Json → Option (List String) := Json.list? Json.string?

def ofJson? (value : Json) : Option IndexRequest := do
  let r ← value.record? ["query", "filter_clauses", "facet_fields", "stats_fields",
    "range_requests", "highlight_queries", "return_fields", "sort", "rows", "start",
    "facet_min_count", "facet_limit"]
  return {
    query := ← r.required "query" Json.string?
    filterClauses := ← r.withDefault "filter_clauses" [] strings?
    facetFields := ← r.withDefault "facet_fields" ∅ stringSet?
    statsFields := ← r.withDefault "stats_fields" ∅ stringSet?
    rangeRequests := ← r.withDefault "range_requests" ∅ (Json.map? RangeRequest.ofJson?)
    highlightQueries := ← r.withDefault "highlight_queries" [] strings?
    returnFields := ← r.withDefault "return_fields" [] strings?
    sort := ← r.withDefault "sort" [] (Json.list? SortSpec.ofJson?)
    rows := ← r.required "rows" Json.word?
    start := ← r.withDefault "start" 0 Json.word?
    facetMinCount := ← r.withDefault "facet_min_count" 1 (Json.natUpTo? (UInt32.size - 1))
    facetLimit := ← r.withDefault "facet_limit" (-1) Json.int64? }

def toJson (r : IndexRequest) : Json :=
  .object [
    ("query", .string r.query),
    ("filter_clauses", .strings r.filterClauses),
    ("facet_fields", .strings r.facetFields.toList),
    ("stats_fields", .strings r.statsFields.toList),
    ("range_requests", .ofMap RangeRequest.toJson r.rangeRequests),
    ("highlight_queries", .strings r.highlightQueries),
    ("return_fields", .strings r.returnFields),
    ("sort", .array (r.sort.map SortSpec.toJson)),
    ("rows", .ofNat r.rows),
    ("start", .ofNat r.start),
    ("facet_min_count", .ofNat r.facetMinCount),
    ("facet_limit", .number (.integer r.facetLimit))]

end IndexRequest

end FacetSearch

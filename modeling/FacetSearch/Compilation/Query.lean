import FacetSearch.Compilation.Fragment
import FacetSearch.Index.Statistics
import FacetSearch.Request.Parameter
import FacetSearch.Request.Sort

set_option autoImplicit false

/-! # Compiled queries

What a request compiles to: a fragment with all that the index is asked, and what is needed to make
sense of its reply. A query with a range that waits for bounds is not complete: `prequery` asks for the
statistics of its fields, and the request is compiled again with the answer. -/

namespace FacetSearch

/-! ## Facets -/

/-- What the values of a facet are. -/
inductive FacetKind where
  | entity
  /-- Buckets of a range. -/
  | range (kind : RangeKind)
  | itemType
  | tile (space : TileSpace)
deriving DecidableEq, Repr

/-- What a facet field stands for in its request. -/
structure FacetMeta where
  field : String
  parameter : Parameter
  kind : FacetKind
  /-- The label of the entity that the facet goes on from. -/
  parentLabel : Option String := none
  /-- The names that lead to the facet. -/
  path : List String := []
  /-- The parameter value that the facet goes on from. -/
  source : Option String := none
  /-- The alternatives of `source` before this one, each with the separator behind it. -/
  before : String := ""
  /-- The alternatives of `source` after this one, each with the separator in front. -/
  after : String := ""
deriving DecidableEq, Repr

/-- The value that has `drilled` in the place of the facet's alternative and keeps the others. -/
def FacetMeta.drilledValue (m : FacetMeta) (drilled : String) : String :=
  m.before ++ drilled ++ m.after

/-! ## Queries -/

/-- A filter value that was dropped. -/
structure RejectedFilter where
  parameter : String
  value : String
  reason : String
deriving DecidableEq, Repr

structure CompiledQuery where
  query : String := matchAll
  fragment : Fragment := {}
  facets : Std.ExtTreeMap String FacetMeta := ∅
  ranges : Std.ExtTreeMap String RangeState := ∅
  rejected : List RejectedFilter := []
  /-- Names that no entity answers to. -/
  unresolved : List String := []
  sort : List SortTerm := SortTerm.defaults
  rows : Nat
  start : Nat := 0
  returnFields : List String := Field.returned
  chronoDepth : Option Nat := none
  geoDepth : Option Nat := none

namespace CompiledQuery

/-- Keep a facet, unless its field has one. -/
def addFacet (q : CompiledQuery) (facet : FacetMeta) : CompiledQuery :=
  { q with facets := q.facets.insertIfNew facet.field facet }

/-- The fields that wait for their bounds. -/
def awaiting (q : CompiledQuery) : List String :=
  (q.ranges.toList.filter fun (_, state) => state.isAwaiting).map (·.1)

def needsPrequery (q : CompiledQuery) : Bool := !q.awaiting.isEmpty

/-- The request for results. -/
def toRequest (q : CompiledQuery) : IndexRequest where
  query := q.query
  filterClauses := Clause.texts q.fragment.clauses
  facetFields := q.fragment.facetFields
  statsFields := q.fragment.statsFields
  rangeRequests := q.fragment.ranges
  highlightQueries := q.fragment.highlights
  returnFields := q.returnFields
  sort := q.sort.map (·.spec)
  rows := q.rows
  start := q.start

/-- The request for the statistics of the fields that wait. -/
def prequery (q : CompiledQuery) : IndexRequest where
  query := q.query
  filterClauses := Clause.texts q.fragment.clauses
  statsFields := q.fragment.awaited

end CompiledQuery

end FacetSearch

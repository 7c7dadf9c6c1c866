import FacetSearch.Navigation.ActiveFilter
import FacetSearch.Navigation.Paging
import FacetSearch.Navigation.RangeFacet
import FacetSearch.Navigation.TileFacet

set_option autoImplicit false

/-! # Assembly of pages

A compiled query and the reply of the index make a page. Facets come in the order of their fields;
those without options are left out, and so are tile facets without values. -/

namespace FacetSearch

structure NavigationSettings where
  /-- What every link starts with. -/
  baseUrl : String := "/query/"
  /-- The digits that keys of time tiles are cut to. -/
  chronoDepth : Nat := 16
  /-- The digits that keys of area tiles are cut to. -/
  geoDepth : Nat := 10
  /-- The most options of a facet. -/
  maxFacetOptions : Nat := 100
deriving DecidableEq, Repr

/-- What a page is assembled from. -/
structure Assembly where
  settings : NavigationSettings := {}
  compiler : CompilerSettings := {}
  params : Params
  query : CompiledQuery
  reply : IndexReply

namespace Assembly

def links (a : Assembly) : Links := ⟨a.settings.baseUrl⟩

/-- The values of a facet, if it has any. -/
def counts? (a : Assembly) (field : String) : Option (List FacetCount) :=
  a.reply.facetFields[field]?.filter (!·.isEmpty)

/-- The facets of a query, in the order of their fields. -/
def metas (a : Assembly) : List FacetMeta := a.query.facets.toList.map (·.2)

/-! ## Facets -/

/-- The facet of entities or item types that a field is, if it has options. -/
def entityFacet? (a : Assembly) (m : FacetMeta) : Inquiry (Option EntityFacet) := do
  let some counts := a.counts? m.field | return none
  let limit := a.settings.maxFacetOptions
  let keep (f : EntityFacet) : Option EntityFacet := if f.groups.isEmpty then none else some f
  match m.kind with
  | .entity =>
    let active ← activeIdentities a.compiler a.params m.parameter
    return keep (← entityFacet a.links a.params m active limit counts)
  | .itemType =>
    return keep (itemTypeFacet a.links a.params (activeTypes a.compiler a.params) limit counts)
  | _ => return none

/-- The number of groups of a range facet. -/
def targetGroups (a : Assembly) (field : String) : Nat :=
  a.compiler.groupsFor ((a.query.ranges[field]?.bind RangeState.bounds?).bind (·.count))

/-- The range facet that a field is, if it was requested and answered and has options. -/
def rangeFacet? (a : Assembly) (m : FacetMeta) : Option RangeOptions := do
  match m.kind with
  | .range kind =>
    let reply ← a.reply.facetRanges[m.field]?
    let request ← a.query.fragment.ranges[m.field]?
    let facet := rangeFacet a.links a.params m kind request reply (a.targetGroups m.field)
    if facet.options.isEmpty then none else some facet
  | _ => none

/-- The depth that keys are cut to. -/
def tileDepth (a : Assembly) (space : TileSpace) : Nat :=
  let asked := match space with
    | .chrono => a.query.chronoDepth.getD a.settings.chronoDepth
    | .geo => a.query.geoDepth.getD a.settings.geoDepth
  effectiveDepth asked (a.params.values (Parameter.tile space).name) (Compiler.deepest space)

/-- The values of the last facet of tiles, if one has any. -/
def tileValues? (a : Assembly) (space : TileSpace) : Option (List FacetCount) :=
  ((a.metas.filter (·.kind = .tile space)).filterMap fun m => a.counts? m.field).getLast?

/-! ## Pages -/

/-- The page. -/
def page (a : Assembly) : Inquiry ResultPage := do
  let facets ← a.metas.mapM a.entityFacet?
  let filters ← activeFilters a.compiler a.links a.params
  return {
    id := a.links.link a.params
    total := a.reply.numFound
    start := a.query.start
    rows := a.query.rows
    paging := paging a.links a.params a.reply.numFound a.query.start a.query.rows
    sort := sortChoices a.links a.params a.query.sort
    filters
    facets := facets.filterMap id
    ranges := a.metas.filterMap a.rangeFacet?
    chrono := (a.tileValues? .chrono).map fun counts =>
      chronoFacet a.links a.params counts (a.tileDepth .chrono)
    geo := (a.tileValues? .geo).map fun counts =>
      geoFacet a.links a.params counts (a.tileDepth .geo)
    records := a.reply.docs
    unresolved := a.query.unresolved
    rejected := a.query.rejected }

end Assembly

end FacetSearch

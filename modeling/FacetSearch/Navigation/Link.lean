import FacetSearch.Compilation.Query
import FacetSearch.Request.Params

set_option autoImplicit false

/-! # Links

Every step that a reader may take from a page of results is a link: the parameters of the page with one
edit. Whatever narrows or widens the result starts again at the first page. -/

namespace FacetSearch

/-- What every link starts with. -/
structure Links where
  base : String
deriving DecidableEq, Repr

namespace Links

def link (l : Links) (params : Params) : String :=
  let query := params.toQueryString
  if query.isEmpty then l.base else l.base ++ "?" ++ query

/-- A link to the first page. -/
def filterLink (l : Links) (params : Params) : String :=
  l.link (params.without Parameter.start.name)

end Links

/-- The parameters that take `segment` as the next level below a facet: the value that the facet goes
    on from is replaced, or a value is added when there is none. -/
def FacetMeta.drill (m : FacetMeta) (params : Params) (segment : String) : Params :=
  let value := m.drilledValue
    ((m.parameter.separator?.getD "").intercalate (m.path ++ [segment]))
  match m.source with
  | some source => params.replaceValue m.parameter.name source value
  | none => params.withValue m.parameter.name value

end FacetSearch

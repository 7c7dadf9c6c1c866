import FacetSearch.Navigation.EntityFacet

set_option autoImplicit false

/-! # Active filters

The filters of a request, in its order, each with a label for readers, a link that takes it back, and
for a path of several levels a link that drops the last one. Blank values are no filters. -/

namespace FacetSearch

/-! ## Labels -/

/-- The label of an alternative: what its name stands for. -/
def alternativeLabel (s : CompilerSettings) (alternative : String) : Inquiry String :=
  let name := Text.trim alternative
  labelFor ((Text.dropLead s.relatedMark name).getD name)

/-- The label of a level: its alternatives in words. -/
def levelLabel (s : CompilerSettings) (level : String) : Inquiry String := do
  let labels ← (Text.splitAt s.orDelimiter level).mapM (alternativeLabel s)
  return " OR ".intercalate labels

/-- The label of an item type, known or not. -/
def typeLabel (token : String) : String :=
  ((ItemType.ofToken? token).map (·.token)).getD (Text.trim token)

/-- The label of a filter value. -/
def filterLabel (s : CompilerSettings) (p : Parameter) (value : String) : Inquiry String := do
  match p with
  | .levels _ =>
    let x := s.expansion p
    let labels ← (x.cutLevels (x.bare value)).mapM (levelLabel s)
    return " :: ".intercalate labels
  | .itemType => return " OR ".intercalate ((Text.splitAt s.orDelimiter value).map typeLabel)
  | _ => return value

/-! ## Filters -/

/-- A value without its last level, if it has several. -/
def broader? (separator value : String) : Option String :=
  (Text.splitLast separator (Text.stripMarks separator (Text.trim value))).map (·.1)

/-- A filter value with its label and links. -/
def activeFilter (s : CompilerSettings) (l : Links) (params : Params) (p : Parameter)
    (value : String) : Inquiry ActiveFilter := do
  let label ← filterLabel s p value
  let wider := p.separator?.bind fun separator => broader? separator value
  return {
    parameter := p.name, value, label
    removal := l.filterLink (params.withoutValue p.name value)
    broadening := wider.map fun parent => l.filterLink (params.replaceValue p.name value parent) }

/-- The values that filter, each with its parameter. -/
def filterValues (params : Params) : List (Parameter × String) :=
  params.toPairs.filterMap fun (name, value) =>
    match Parameter.ofName? name with
    | some p => if p.isFilter && !Text.isBlankText value then some (p, value) else none
    | none => none

/-- The filters of a request. -/
def activeFilters (s : CompilerSettings) (l : Links) (params : Params) :
    Inquiry (List ActiveFilter) :=
  (filterValues params).mapM fun (p, value) => activeFilter s l params p value

end FacetSearch

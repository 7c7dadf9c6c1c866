import FacetSearch.Navigation.Link
import FacetSearch.Navigation.Page

set_option autoImplicit false

/-! # Turning pages

Links to the first, the previous, the next and the last page of `total` results, `rows` on a page.
Offsets are 64-bit numbers and stop at the greatest. -/

namespace FacetSearch

/-- The offset of the last page. -/
def lastStart (total rows : Nat) : Nat := (total - 1) / rows * rows

/-- The offset one page after `start`. -/
def nextStart (start rows : Nat) : Nat := min (start + rows) Decimal.greatestWord

/-- A link to another offset. -/
def Links.pageLink (l : Links) (params : Params) (offset : Nat) : String :=
  l.link (params.withSingle Parameter.start.name (toString offset))

/-- The links from the page at `start`; there are none when there are no results or no rows. -/
def paging (l : Links) (params : Params) (total start rows : Nat) : Paging :=
  if rows = 0 ∨ total = 0 then {}
  else
    let to? (here : Bool) (offset : Nat) : Option String :=
      if here then some (l.pageLink params offset) else none
    { first := to? (0 < start) 0
      previous := to? (0 < start) (start - rows)
      next := to? (nextStart start rows < total) (nextStart start rows)
      last := to? (start < lastStart total rows) (lastStart total rows) }

/-! ## Sorting -/

/-- How else the results could be sorted: by one key in one order that is not a term already. -/
def sortOffers (active : List SortTerm) : List SortTerm :=
  (SortKey.all.flatMap fun key => [⟨key, .asc⟩, ⟨key, .desc⟩]).filter
    fun term => !active.contains term

def SortTerm.option (t : SortTerm) (link : Option String) : SortOption :=
  { key := t.key.name, label := t.key.label, order := t.order, link }

/-- The terms that the results are sorted by, and links for the others. -/
def sortChoices (l : Links) (params : Params) (active : List SortTerm) : SortChoices where
  active := active.map (·.option none)
  options := (sortOffers active).map fun term =>
    term.option (some (l.filterLink (params.withSingle Parameter.sort.name term.render)))

end FacetSearch

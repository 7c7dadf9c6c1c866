import FacetSearch.Index.Field

set_option autoImplicit false

/-! # Request parameters

The parameters that a request may have, each with its name, and whether it narrows the result. The
values of three of them are paths through a hierarchy; the others are flat. -/

namespace FacetSearch

/-- The two kinds of tiles. -/
inductive TileSpace where
  /-- Intervals of time. -/
  | chrono
  /-- Areas on the map. -/
  | geo
deriving DecidableEq, Repr

/-- A side that a year bounds a period of use on. -/
inductive YearBound where
  /-- Still in use at or after the year. -/
  | since
  /-- Already in use by the year. -/
  | until
deriving DecidableEq, Repr

inductive Parameter where
  /-- Paths through a hierarchy. -/
  | levels (family : FieldFamily)
  | itemType
  /-- Free text. -/
  | text
  | identifier
  | tile (space : TileSpace)
  | year (bound : YearBound)
  | sort
  /-- Predicates whose values are returned with each record. -/
  | attributes
  | rows
  | start
  /-- How deep tiles are aggregated. -/
  | depth (space : TileSpace)
deriving DecidableEq, Repr

/-- What separates the levels of a path. -/
def FieldFamily.separator : FieldFamily → String
  | context => "/"
  | predicate | project => "---"

namespace Parameter

def all : List Parameter :=
  [levels .context, levels .predicate, levels .project, itemType, text, identifier, tile .chrono,
    tile .geo, year .since, year .until, sort, attributes, rows, start, depth .chrono, depth .geo]

def name : Parameter → String
  | levels .context => "path"
  | levels .predicate => "prop"
  | levels .project => "proj"
  | itemType => "type"
  | text => "q"
  | identifier => "id"
  | tile .chrono => "form-chronotile"
  | tile .geo => "disc-geotile"
  | year .since => "form-start"
  | year .until => "form-stop"
  | sort => "sort"
  | attributes => "attributes"
  | rows => "rows"
  | start => "start"
  | depth .chrono => "chronodeep"
  | depth .geo => "geodeep"

def ofName? (name : String) : Option Parameter := all.find? (·.name = name)

/-- The family of fields that the values of a path name. -/
def family? : Parameter → Option FieldFamily
  | levels family => some family
  | _ => none

/-- What separates the levels of a value; flat parameters have none. -/
def separator? (p : Parameter) : Option String := p.family?.map (·.separator)

/-- The parameter narrows the result, and a link can take it back. -/
def isFilter : Parameter → Bool
  | sort | attributes | rows | start | depth _ => false
  | _ => true

end Parameter

end FacetSearch

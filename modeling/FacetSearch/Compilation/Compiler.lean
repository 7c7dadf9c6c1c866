import FacetSearch.Compilation.Path
import FacetSearch.Request.Params
import FacetSearch.Tile.Chronology
import FacetSearch.Tile.Quadkey

set_option autoImplicit false

/-! # Compilation of requests

Parameters narrow the result together, and the values of one parameter are alternatives. Parameters are
compiled in the order in which the request names them, so the first one that is refused decides the
error; unknown ones are passed over. In the end come the facets that every reply carries, so that there
is something to start from. -/

namespace FacetSearch.Compiler

/-! ## Flat values -/

/-- The alternatives of the values of a flat parameter. -/
def flat (c : Compiler) (p : Parameter) (values : List String) : Except RequestError (List String) :=
  ((c.settings.expansion p).expand values).map List.flatten

/-- A fragment that requires a clause. -/
def clauseFragment (text : String) : Fragment := Fragment.empty.require (.single text)

/-- One of the known item types; nothing can be met when there are values and none is known. -/
def itemTypes (c : Compiler) (q : CompiledQuery) (values : List String) :
    Except RequestError CompiledQuery := do
  let values ← c.flat .itemType values
  let known := values.filterMap ItemType.ofToken?
  let unknown := values.filter fun value => (ItemType.ofToken? value).isNone
  let q :=
    if known.isEmpty && !unknown.isEmpty then q.requireNothing
    else q.requireOneOf (known.map fun type =>
      clauseFragment (Field.itemType ++ ":" ++ type.token))
  return { q with unresolved := q.unresolved ++ unknown }

/-- Every word of the free text, which becomes the main query. -/
def freeText (q : CompiledQuery) (values : List String) : CompiledQuery :=
  let terms := values.flatMap Term.tokenize
  if terms.isEmpty then q
  else
    { q with
      query := " AND ".intercalate (terms.map fun term => Field.text ++ ":" ++ term)
      fragment := { q.fragment with
        highlights := terms.foldl Fragment.addNew q.fragment.highlights } }

/-- The clause for an identifier or a persistent URI. -/
def identifierClause (name : String) : String :=
  "(" ++ Field.uuid ++ ":" ++ Term.escape name ++ " OR " ++ Field.persistentUri ++ ":"
    ++ Term.quote name ++ ")"

def identifiers (c : Compiler) (q : CompiledQuery) (values : List String) :
    Except RequestError CompiledQuery := do
  let names ← c.flat .identifier values
  return q.requireOneOf (names.map fun name => clauseFragment (identifierClause name))

/-- The field that holds tiles. -/
def tileField : TileSpace → String
  | .chrono => Field.chronoTile
  | .geo => Field.geoTile

/-- A text in lower case, as far as it is ASCII. -/
def lowered (text : String) : String := String.ofList (text.toList.map Char.toLower)

/-- The written form of a tile, if the text names one. -/
def tilePath (space : TileSpace) (value : String) : Except TileError String :=
  match space with
  | .geo => (Quadkey.decode value).map fun _ => value
  | .chrono => (Chronology.decode (lowered value)).map fun _ => lowered value

/-- The clause for all tiles inside one. -/
def tileClause (space : TileSpace) (path : String) : String :=
  tileField space ++ ":" ++ Term.escape path ++ "*"

/-- The tiles among some values, and the values that are none. -/
def sortTiles (space : TileSpace) : List String → List String × List RejectedFilter
  | [] => ([], [])
  | value :: rest =>
    let (paths, rejected) := sortTiles space rest
    match tilePath space value with
    | .ok path => (path :: paths, rejected)
    | .error e => (paths, ⟨(Parameter.tile space).name, value, e.message⟩ :: rejected)

/-- One of the tiles; values that are none are dropped and reported. -/
def tiles (c : Compiler) (q : CompiledQuery) (space : TileSpace) (values : List String) :
    Except RequestError CompiledQuery := do
  let (paths, rejected) := sortTiles space (← c.flat (.tile space) values)
  let q := { q with rejected := q.rejected ++ rejected }
  return q.requireOneOf (paths.map fun path => clauseFragment (tileClause space path))

/-- The clause for a period of use. -/
def yearClause (bound : YearBound) (year : Int) : String :=
  match bound with
  | .since => Field.chronoLatest ++ ":[" ++ toString year ++ " TO *]"
  | .until => Field.chronoEarliest ++ ":[* TO " ++ toString year ++ "]"

/-- The year that a value gives. -/
def yearOf (bound : YearBound) (value : String) : Except RequestError Int :=
  match Decimal.int64? value with
  | some year => .ok year
  | none => .error (.invalidNumber ((Parameter.year bound).name ++ "=" ++ value))

def years (c : Compiler) (q : CompiledQuery) (bound : YearBound) (values : List String) :
    Except RequestError CompiledQuery := do
  let years ← (← c.flat (.year bound) values).mapM (yearOf bound)
  return q.requireOneOf (years.map fun year => clauseFragment (yearClause bound year))

/-! ## Paging and order -/

/-- A count, with white space around it. -/
def countOf (p : Parameter) (raw : String) : Except RequestError Nat :=
  match Decimal.nat? Decimal.greatestWord (Text.trim raw) with
  | some n => .ok n
  | none => .error (.invalidPaging p.name raw)

/-- The deepest tiles of a space. -/
def deepest : TileSpace → Nat
  | .chrono => Chronology.maxDigits
  | .geo => Quadkey.maxZoom

/-- Set how deep tiles are aggregated. -/
def withDepth (q : CompiledQuery) (space : TileSpace) (depth : Nat) : CompiledQuery :=
  match space with
  | .chrono => { q with chronoDepth := some (min depth (deepest space)) }
  | .geo => { q with geoDepth := some (min depth (deepest space)) }

/-- Parameters of which the last value counts. -/
def lastValue (c : Compiler) (q : CompiledQuery) (p : Parameter) (raw : String) :
    Except RequestError CompiledQuery :=
  match p with
  | .sort => do return { q with sort := ← SortTerm.parse raw }
  | .rows => do return { q with rows := min (← countOf p raw) c.settings.maxRows }
  | .start => do return { q with start := ← countOf p raw }
  | .depth space => do return withDepth q space (← countOf p raw)
  | _ => .ok q

/-! ## Attributes -/

/-- The names in values with commas. -/
def attributeNames (values : List String) : List String :=
  ((values.flatMap (Text.splitAt ",")).map Text.trim).filter fun name => !name.isEmpty

/-- Return the fields of some predicates too; names that no entity answers to are passed over. -/
def attributes (q : CompiledQuery) : List String → Inquiry CompiledQuery
  | [] => return q
  | name :: rest => do
    match ← Inquiry.entity? name with
    | none => attributes q rest
    | some e =>
      let field := ((FieldPath.root .predicate).child e none).name
      attributes { q with returnFields := Fragment.addNew q.returnFields field } rest

/-! ## Requests -/

/-- Put the paths of a hierarchical parameter into a query. -/
def levels (c : Compiler) (q : CompiledQuery) (family : FieldFamily) (values : List String) :
    Compiling CompiledQuery := do
  return q.addPaths (← c.values family 0 values)

/-- Put one parameter into a query. -/
def parameter (c : Compiler) (q : CompiledQuery) (p : Parameter) (values : List String) :
    Compiling CompiledQuery :=
  match p with
  | .levels family => c.levels q family values
  | .itemType => .mk (pure (c.itemTypes q values))
  | .text => return freeText q values
  | .identifier => .mk (pure (c.identifiers q values))
  | .tile space => .mk (pure (c.tiles q space values))
  | .year bound => .mk (pure (c.years q bound values))
  | .attributes => ExceptT.lift (attributes q (attributeNames values))
  | .sort | .rows | .start | .depth _ =>
    match values.getLast? with
    | some raw => .mk (pure (c.lastValue q p raw))
    | none => return q

/-- Put parameters into a query in order; unknown names are passed over. -/
def parameters (c : Compiler) (q : CompiledQuery) :
    List (String × List String) → Compiling CompiledQuery
  | [] => return q
  | (name, values) :: rest => do
    match Parameter.ofName? name with
    | none => c.parameters q rest
    | some p => c.parameters (← c.parameter q p values) rest

/-- The facets that every reply carries: the top of each hierarchy that the request does not go into,
    and the fixed ones. -/
def defaultFacets (params : Params) : List FacetMeta :=
  let tops : List FacetMeta :=
    ([.context, .predicate, .project] : List FieldFamily).filterMap fun family =>
      let p := Parameter.levels family
      if params.contains p.name then none
      else some { field := (FieldPath.root family).name, parameter := p, kind := .entity }
  tops ++ [
    { field := Field.itemType, parameter := .itemType, kind := .itemType },
    { field := Field.chronoTile, parameter := .tile .chrono, kind := .tile .chrono },
    { field := Field.geoTile, parameter := .tile .geo, kind := .tile .geo }]

/-- Ask for a facet, and keep what its field stands for unless that is known. -/
def withFacet (q : CompiledQuery) (facet : FacetMeta) : CompiledQuery :=
  { q with fragment := { q.fragment with
    facetFields := q.fragment.facetFields.insert facet.field } }.addFacet facet

/-- The query that narrows nothing. -/
def start (c : Compiler) : CompiledQuery := { rows := c.settings.defaultRows }

/-- Compile a whole request. -/
def compile (c : Compiler) (params : Params) : Compiling CompiledQuery := do
  let q ← c.parameters c.start params.entries
  return (defaultFacets params).foldl withFacet q

/-- Compile the values of one hierarchical parameter alone; any other narrows nothing. -/
def compileParameter (c : Compiler) (p : Parameter) (values : List String) :
    Compiling CompiledQuery :=
  match p with
  | .levels family => c.levels c.start family values
  | _ => return c.start

end FacetSearch.Compiler

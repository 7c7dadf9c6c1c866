import FacetSearch.Ancestry.Inquiry
import FacetSearch.Compilation.Query
import FacetSearch.Compilation.Settings
import FacetSearch.Index.Term

set_option autoImplicit false

/-! # Compilation of paths

A path names entities from the top of a hierarchy down. Each requires its slug in the field that the
path has reached so far, and the field below the last one becomes a facet. Where a path reaches a field
of literals, what comes next is a value: words of a text, or a range of numbers or dates. A range with
both ends is known at once, all others need the bounds of the field, and while the table of statistics
does not tell them the field waits. A path with a name that no entity answers to comes to nothing. -/

namespace FacetSearch

/-! ## What paths come from and come to -/

/-- Settings, and what is known of the values in the index. -/
structure Compiler where
  settings : CompilerSettings := {}
  stats : StatsTable := {}

/-- A computation that asks for entities and may refuse the request. -/
abbrev Compiling := ExceptT RequestError Inquiry

/-- Where a path stands among the alternatives of its value. -/
structure PathSource where
  family : FieldFamily
  value : String
  /-- The alternatives before the path, each with the separator behind it. -/
  before : String := ""
  /-- The alternatives after the path, each with the separator in front. -/
  after : String := ""
deriving DecidableEq, Repr

/-- What a path adds to a query. -/
structure Alternative where
  fragment : Fragment
  facet : Option FacetMeta := none
  /-- The range field that the path ends in, and its state. -/
  range : Option (String × RangeState) := none

inductive PathOutcome where
  | compiled (alternative : Alternative)
  /-- The first name that no entity answers to. -/
  | unresolved (name : String)

/-- The facet below a path. -/
def PathSource.facet (source : PathSource) (field : FieldPath) (kind : FacetKind)
    (path : List String) : FacetMeta where
  field := field.name
  parameter := .levels source.family
  kind := kind
  parentLabel := field.parent.map (·.label)
  path := path
  source := some source.value
  before := source.before
  after := source.after

/-! ## Literals -/

namespace Compiler

/-- The clauses and highlights of words in a text field. -/
def withWords (field : String) (f : Fragment) (terms : List String) : Fragment :=
  terms.foldl (fun f term =>
    let f := f.require (.single (field ++ ":" ++ term))
    { f with highlights := Fragment.addNew f.highlights term }) f

/-- The clause of a range in index syntax. -/
def rangeClause (field low high : String) : Clause :=
  .single (field ++ ":[" ++ low ++ " TO " ++ high ++ "]")

/-- The state that a range starts in: known when it has both ends, else as far as statistics go. -/
def rangeState (c : Compiler) (field : String) (literal : RangeLiteral) : RangeState :=
  match literal.low, literal.high with
  | some low, some high => .bound ⟨low, high, none⟩
  | _, _ => RangeState.advance field literal.kind c.stats .unbounded

/-- One end of a range over a field without values. -/
def openEnd (kind : RangeKind) (point : Option Binary64) : String :=
  (point.map (Point.render kind)).getD "*"

/-- The buckets over a range. -/
def buckets (c : Compiler) (kind : RangeKind) (low high : Binary64) (count : Option Nat) :
    RangeRequest where
  kind := kind
  start := Point.render kind low
  stop := Point.render kind high
  gap := Gap.render kind (high - low) (c.settings.groupsFor count)

/-- The end of a path at a field of numbers or dates. Without a value (`given` is false) there are
    buckets but no clause. -/
def rangeEnd (c : Compiler) (source : PathSource) (field : FieldPath) (path : List String)
    (f : Fragment) (literal : RangeLiteral) (given : Bool) : Alternative :=
  let name := field.name
  let kind := literal.kind
  let state := c.rangeState name literal
  let range := some (name, state)
  match state.bounds? with
  | none => { fragment := { f with awaited := f.awaited.insert name }, range }
  | some bounds =>
    if bounds.isEmpty then
      let clause := rangeClause name (openEnd kind literal.low) (openEnd kind literal.high)
      { fragment := if given then f.require clause else f, range }
    else
      let (low, high) := literal.within bounds.min bounds.max
      let clause := rangeClause name (Point.render kind low) (Point.render kind high)
      let f := if given then f.require clause else f
      if low.lt high then
        { fragment := { f with
            ranges := f.ranges.insert name (c.buckets kind low high bounds.count)
            statsFields := f.statsFields.insert name }
          facet := some (source.facet field (.range kind) path)
          range }
      else { fragment := f, range }

/-- The end of a path at a field of literals, with its value if there is one. -/
def literalEnd (c : Compiler) (source : PathSource) (field : FieldPath) (path : List String)
    (f : Fragment) (raw : Option String) : Except RequestError Alternative :=
  let range (kind : RangeKind) : Except RequestError Alternative := do
    let literal ← match raw with
      | some text => RangeLiteral.parse kind text
      | none => pure (.unbounded kind)
    return c.rangeEnd source field path f literal raw.isSome
  match field.kind with
  | .numeric => range .numeric
  | .date => range .date
  | .string => .ok { fragment := withWords field.name f ((raw.map Term.tokenize).getD []) }
  | .id => .ok { fragment := f }

/-! ## Paths -/

/-- The end of a path behind its last name. -/
def pathEnd (c : Compiler) (source : PathSource) (field : FieldPath) (path : List String)
    (f : Fragment) : Except RequestError Alternative :=
  if field.kind.isLiteral then c.literalEnd source field path f none
  else .ok {
    fragment := { f with facetFields := f.facetFields.insert field.name }
    facet := some (source.facet field .entity path) }

/-- A name without the mark of related records, and whether it had the mark. -/
def unmarked (c : Compiler) (raw : String) : String × Bool :=
  match Text.dropLead c.settings.relatedMark raw with
  | some name => (name, true)
  | none => (raw, false)

/-- The clause for an entity in the field that a path has reached. -/
def entityClause (field : FieldPath) (e : Entity) : Clause :=
  .single (field.name ++ ":" ++ Term.escape e.slug)

/-- The rest of a path from `field` on, where `path` holds the names before it and `f` what they
    require. -/
def pathFrom (c : Compiler) (source : PathSource) (field : FieldPath) (path : List String)
    (f : Fragment) : List String → Compiling PathOutcome
  | [] => .mk (pure ((c.pathEnd source field path f).map .compiled))
  | raw :: rest =>
    if field.kind.isLiteral then
      match rest with
      | [] => .mk (pure ((c.literalEnd source field path f (some raw)).map .compiled))
      | next :: _ => throw (.malformed (Parameter.levels source.family).name
          (.followsLiteral next raw))
    else do
      let (name, linked) := c.unmarked raw
      match ← (Inquiry.entity? name : Inquiry (Option Entity)) with
      | none => return .unresolved name
      | some e =>
        let mark := if linked || e.related then some c.settings.relatedMark else none
        c.pathFrom source (field.child e mark) (path ++ [raw]) (f.require (entityClause field e))
          rest

/-- Compile one path. -/
def path (c : Compiler) (source : PathSource) (names : List String) : Compiling PathOutcome :=
  c.pathFrom source (.root source.family) [] .empty names

/-! ## Values -/

/-- The paths of one value, each with the alternatives around it. -/
def sources (c : Compiler) (family : FieldFamily) (value : String) (paths : List (List String)) :
    List (PathSource × List String) :=
  let or := c.settings.orDelimiter
  let written := paths.map family.separator.intercalate
  paths.zipIdx.map fun (path, i) =>
    ({ family, value
       before := String.join ((written.take i).map (· ++ or))
       after := String.join ((written.drop (i + 1)).map (or ++ ·)) }, path)

/-- Compile the paths of some values in order, of which `count` are already compiled. -/
def values (c : Compiler) (family : FieldFamily) : Nat → List String → Compiling (List PathOutcome)
  | _, [] => return []
  | count, raw :: rest => do
    let paths ← (.mk (pure ((c.settings.expansion (.levels family)).expand [raw])) :
      Compiling (List (List String)))
    let count := count + paths.length
    if c.settings.maxAlternatives < count then
      throw (.tooManyAlternatives count c.settings.maxAlternatives)
    let here ← (c.sources family raw paths).mapM fun (source, names) => c.path source names
    return here ++ (← c.values family count rest)

end Compiler

namespace PathOutcome

def alternative? : PathOutcome → Option Alternative
  | compiled a => some a
  | unresolved _ => none

def missing? : PathOutcome → Option String
  | compiled _ => none
  | unresolved name => some name

end PathOutcome

namespace CompiledQuery

/-- Keep the facet and the range state of an alternative. A later state of a field takes the place of
    an earlier one. -/
def addAlternative (q : CompiledQuery) (a : Alternative) : CompiledQuery :=
  let q := match a.range with
    | some (field, state) => { q with ranges := q.ranges.insert field state }
    | none => q
  match a.facet with
  | some facet => q.addFacet facet
  | none => q

/-- Require one of some fragments. -/
def requireOneOf (q : CompiledQuery) (fragments : List Fragment) : CompiledQuery :=
  { q with fragment := q.fragment.merge (.anyOf fragments) }

/-- Require what cannot be met. -/
def requireNothing (q : CompiledQuery) : CompiledQuery :=
  { q with fragment := q.fragment.require .nothing }

/-- Put the paths of a parameter into a query: one of those that came to something is required, and
    nothing can be met when there were paths and all came to nothing. -/
def addPaths (q : CompiledQuery) (outcomes : List PathOutcome) : CompiledQuery :=
  let found := outcomes.filterMap PathOutcome.alternative?
  let missing := outcomes.filterMap PathOutcome.missing?
  let q := found.foldl addAlternative q
  let q :=
    if found.isEmpty then (if missing.isEmpty then q else q.requireNothing)
    else q.requireOneOf (found.map (·.fragment))
  { q with unresolved := missing.foldl Fragment.addNew q.unresolved }

end CompiledQuery

end FacetSearch

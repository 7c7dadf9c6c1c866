import FacetSearch.Index.Point
import FacetSearch.Json.Record

set_option autoImplicit false

/-! # Field statistics and range states

The index reports the least and the greatest value of a field and how many documents have one. A
range without both ends needs them: its field starts unbounded, and either the table of statistics
bounds it or it waits. Once the index has answered a request for statistics, a field it left out is
known to be empty, so against such a table no field waits. -/

namespace FacetSearch

/-! ## Statistics -/

/-- A statistic: a number, or the text of a date. -/
inductive StatValue where
  | number (value : Binary64)
  | text (value : String)
deriving DecidableEq, Repr

namespace StatValue

def toNumber? : StatValue → Option Binary64
  | number value => some value
  | text value => Decimal.binary64? value

def toText : StatValue → String
  | number value => value.plain
  | text value => value

/-- The point that a statistic is on an axis. -/
def toPoint? : RangeKind → StatValue → Option Binary64
  | .date, text value => (Point.date value).toOption
  | _, value => value.toNumber?

def ofJson? : Json → Option StatValue
  | .string value => some (text value)
  | value => value.binary64?.map number

def toJson : StatValue → Json
  | number value => .number (.real value)
  | text value => .string value

end StatValue

/-- What the index knows about the values of a field. -/
structure FieldStats where
  min : Option StatValue := none
  max : Option StatValue := none
  count : Nat := 0
deriving DecidableEq, Repr, Inhabited

namespace FieldStats

/-- The index saw no values. -/
def isEmpty (s : FieldStats) : Bool := s.count = 0 || s.min.isNone || s.max.isNone

def ofJson? (value : Json) : Option FieldStats := do
  let r ← value.record? ["min", "max", "count"]
  return {
    min := ← r.named "min" StatValue.ofJson?
    max := ← r.named "max" StatValue.ofJson?
    count := ← r.withDefault "count" 0 Json.word? }

def toJson (s : FieldStats) : Json :=
  .object (Json.dropNulls [("min", Json.ofOption StatValue.toJson s.min),
    ("max", Json.ofOption StatValue.toJson s.max), ("count", .ofNat s.count)])

end FieldStats

/-! ## Bounds -/

/-- The least and the greatest point of a field. -/
structure RangeBounds where
  min : Binary64
  max : Binary64
  /-- The number of documents with a value, where the index reported it. -/
  count : Option Nat
deriving DecidableEq, Repr

namespace RangeBounds

/-- The bounds of a field without values. -/
def empty : RangeBounds := ⟨.zero, .zero, some 0⟩

def isEmpty (b : RangeBounds) : Bool := b.count = some 0

end RangeBounds

/-- The statistics of some fields. -/
structure StatsTable where
  fields : Std.ExtTreeMap String FieldStats := ∅
  /-- The table is the full answer of the index, so what it leaves out is empty. -/
  answered : Bool := false

namespace StatsTable

def empty : StatsTable := {}

def insert (t : StatsTable) (field : String) (stats : FieldStats) : StatsTable :=
  { t with fields := t.fields.insert field stats }

/-- The table as a full answer. -/
def markAnswered (t : StatsTable) : StatsTable := { t with answered := true }

/-- The bounds that statistics give; empty unless there are values and both ends can be read. -/
def boundsOf (kind : RangeKind) (stats : FieldStats) : RangeBounds :=
  match stats.min.bind (StatValue.toPoint? kind), stats.max.bind (StatValue.toPoint? kind) with
  | some low, some high =>
    if 0 < stats.count then ⟨low.min high, high.max low, some stats.count⟩ else .empty
  | _, _ => .empty

/-- The bounds of a field, if the table tells them. -/
def bounds (t : StatsTable) (field : String) (kind : RangeKind) : Option RangeBounds :=
  match t.fields[field]? with
  | some stats => some (boundsOf kind stats)
  | none => if t.answered then some .empty else none

end StatsTable

/-! ## States -/

/-- How far the range of a field has come. -/
inductive RangeState where
  | unbounded
  | awaitingStats
  | bound (bounds : RangeBounds)
deriving DecidableEq, Repr

namespace RangeState

/-- One step toward bounds, with what the table knows. -/
def advance (field : String) (kind : RangeKind) (table : StatsTable) : RangeState → RangeState
  | bound bounds => bound bounds
  | _ =>
    match table.bounds field kind with
    | some bounds => bound bounds
    | none => awaitingStats

def isAwaiting : RangeState → Bool
  | awaitingStats => true
  | _ => false

def bounds? : RangeState → Option RangeBounds
  | bound bounds => some bounds
  | _ => none

end RangeState

end FacetSearch

import FacetSearch.Calendar
import FacetSearch.Number.Shortest
import FacetSearch.Request.Error

set_option autoImplicit false

/-! # Points on a range axis

Fields with ordered values hold numbers or dates. A point on either axis is a binary64 number: a number
stands for itself and a date for its seconds since 1970. Numbers are written with at most six
decimals, dates as timestamps in universal time. A gap is the width of a bucket: a number, or whole
days written `+nDAYS`. -/

namespace FacetSearch

/-- What the values of a range field are. -/
inductive RangeKind where
  | numeric
  | date
deriving DecidableEq, Repr

namespace RangeKind

def name : RangeKind → String
  | numeric => "numeric"
  | date => "date"

def ofName? (name : String) : Option RangeKind :=
  if name = "numeric" then some numeric else if name = "date" then some date else none

end RangeKind

namespace Point

/-! ## Reading -/

/-- A finite number, with white space around it. -/
def number (text : String) : Except RequestError Binary64 :=
  match (Decimal.binary64? (Text.trim text)).filter (·.isFinite) with
  | some x => .ok x
  | none => .error (.invalidNumber text)

/-- The seconds since 1970 of a date or a timestamp, with white space around it. -/
def date (text : String) : Except RequestError Binary64 :=
  let trimmed := Text.trim text
  match Calendar.instant? trimmed.toList with
  | some instant => .ok (.ofInt instant)
  | none => .error (.invalidDate trimmed)

def parse : RangeKind → String → Except RequestError Binary64
  | .numeric => number
  | .date => date

/-! ## Writing -/

/-- Rounded to six decimals. -/
def round6 (x : Binary64) : Binary64 := (x * 1000000).round / 1000000

def renderNumber (x : Binary64) : String := (round6 x).plain

/-- The whole second nearest to a point; a NaN counts as zero. -/
def nearestSecond? : Binary64 → Option Int
  | .nan => some 0
  | x => x.round.truncate?

/-- The written form of a point. A date outside the years from 0 to 9999 is written as a number. -/
def render : RangeKind → Binary64 → String
  | .numeric, x => renderNumber x
  | .date, x => ((nearestSecond? x).bind Calendar.timestamp).getD (renderNumber x)

end Point

namespace Gap

def daySeconds : Binary64 := 86400

/-- The width of each of `groups` buckets across `span`; never zero, and whole days for dates. -/
def render (kind : RangeKind) (span : Binary64) (groups : Nat) : String :=
  let groups := Binary64.ofNat (max groups 1)
  match kind with
  | .numeric =>
    let gap := Point.round6 (span / groups)
    Point.renderNumber (if Binary64.zero.lt gap then gap else 1)
  | .date => "+" ++ ((span / daySeconds / groups).ceil.max 1).plain ++ "DAYS"

/-- The width that a written gap stands for, if it is positive and finite. -/
def parse? (kind : RangeKind) (gap : String) : Option Binary64 := do
  let trimmed := Text.trim gap
  let width ← match kind with
    | .numeric => Decimal.binary64? trimmed
    | .date => do
      let days ← Text.dropTail "DAYS" (← Text.dropLead "+" trimmed)
      (Decimal.binary64? days).map (· * daySeconds)
  if width.isFinite && Binary64.zero.lt width then some width else none

end Gap

/-! ## Ranges -/

/-- A range as a client gives it: `10,20`, `10,`, `,20`, `15` or `*`. An open end has no bound. -/
structure RangeLiteral where
  kind : RangeKind
  low : Option Binary64
  high : Option Binary64
deriving DecidableEq, Repr

namespace RangeLiteral

def unbounded (kind : RangeKind) : RangeLiteral := ⟨kind, none, none⟩

/-- The text leaves an end open. -/
def isOpen (text : String) : Bool := text.isEmpty || text = "*"

/-- One end of a range. -/
def parseEnd (kind : RangeKind) (text : String) : Except RequestError (Option Binary64) :=
  let trimmed := Text.trim text
  if isOpen trimmed then .ok none else (Point.parse kind trimmed).map some

/-- A range with its ends in order; ends given the wrong way round are swapped. -/
def ordered (kind : RangeKind) : Option Binary64 → Option Binary64 → RangeLiteral
  | some low, some high => if high.lt low then ⟨kind, some high, some low⟩
    else ⟨kind, some low, some high⟩
  | low, high => ⟨kind, low, high⟩

def parse (kind : RangeKind) (text : String) : Except RequestError RangeLiteral := do
  let trimmed := Text.trim text
  if isOpen trimmed then return unbounded kind
  match Text.splitFirst "," trimmed with
  | some (low, high) => return ordered kind (← parseEnd kind low) (← parseEnd kind high)
  | none =>
    let point ← Point.parse kind trimmed
    return ⟨kind, some point, some point⟩

/-- Both ends are given. -/
def isClosed (r : RangeLiteral) : Bool := r.low.isSome && r.high.isSome

/-- Both ends are given and equal. -/
def isSingle (r : RangeLiteral) : Bool :=
  match r.low, r.high with
  | some low, some high => low.eqv high
  | _, _ => false

/-- The ends, with `min` and `max` for those that are open. -/
def within (r : RangeLiteral) (min max : Binary64) : Binary64 × Binary64 :=
  (r.low.getD min, r.high.getD max)

end RangeLiteral

end FacetSearch

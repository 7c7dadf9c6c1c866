import FacetSearch.Index.Request

set_option autoImplicit false

/-! # Query fragments

Pieces of an index query that are put together to a whole. The clauses of a fragment are all required;
`merge` requires what both fragments require, and `anyOf` requires what one of several fragments does.
What the fragments ask of the index beside that (facets, statistics, ranges) is kept from all of them.
Clauses that read the same are kept once. -/

namespace FacetSearch

/-! ## Clauses -/

inductive Clause where
  | single (text : String)
  /-- Every clause of one of the groups. -/
  | anyOf (groups : List (List String))
deriving DecidableEq, Repr

namespace Clause

/-- A group in parentheses. -/
def groupText (clauses : List String) : String := "(" ++ " AND ".intercalate clauses ++ ")"

def text : Clause → String
  | single text => text
  | anyOf groups => " OR ".intercalate (groups.map groupText)

/-- The clause that matches no document. -/
def nothing : Clause := single "-*:*"

/-- The texts of clauses. -/
def texts (clauses : List Clause) : List String := clauses.map text

/-- Add a clause unless one reads the same. -/
def add (clauses : List Clause) (c : Clause) : List Clause :=
  if (texts clauses).contains c.text then clauses else clauses ++ [c]

/-- The groups that differ in their texts, in the order in which they first come; empty ones require
    nothing and do not count. -/
def distinctGroups (groups : List (List Clause)) : List (List Clause) :=
  groups.foldl (fun done group =>
    if group.isEmpty || (done.map texts).contains (texts group) then done else done ++ [group]) []

/-- Clauses that require one of several groups: a lone group stays as it is. -/
def disjunction (groups : List (List Clause)) : List Clause :=
  match distinctGroups groups with
  | [] => []
  | [group] => group
  | several => [anyOf (several.map texts)]

end Clause

/-! ## Ranges -/

namespace RangeRequest

/-- The two ends of a range, if they can be read. -/
def ends? (r : RangeRequest) : Option (Binary64 × Binary64) := do
  return (← (Point.parse r.kind r.start).toOption, ← (Point.parse r.kind r.stop).toOption)

/-- The number of buckets between `low` and `high`; one where the gap cannot be read. -/
def groups (r : RangeRequest) (low high : Binary64) : Nat :=
  match Gap.parse? r.kind r.gap with
  | some width => (((high - low) / width).round.max 1).toWord
  | none => 1

/-- The range across two ranges, with as many buckets as the first one has. The first one stays as
    it is when it covers the other, and when the two cannot be compared. -/
def union (r other : RangeRequest) : RangeRequest :=
  if r.kind ≠ other.kind then r
  else
    match r.ends?, other.ends? with
    | some (low, high), some (otherLow, otherHigh) =>
      let start := low.min otherLow
      let stop := high.max otherHigh
      if start.eqv low && stop.eqv high then r
      else
        { r with
          start := Point.render r.kind start
          stop := Point.render r.kind stop
          gap := Gap.render r.kind (stop - start) (r.groups low high) }
    | _, _ => r

end RangeRequest

/-! ## Fragments -/

structure Fragment where
  clauses : List Clause := []
  facetFields : Std.ExtTreeSet String := ∅
  statsFields : Std.ExtTreeSet String := ∅
  ranges : Std.ExtTreeMap String RangeRequest := ∅
  /-- Fields whose bounds have to be known before their range can be requested. -/
  awaited : Std.ExtTreeSet String := ∅
  highlights : List String := []

namespace Fragment

def empty : Fragment := {}

/-- The fragment requires nothing and asks for nothing. -/
def isEmpty (f : Fragment) : Bool :=
  f.clauses.isEmpty && f.facetFields.isEmpty && f.statsFields.isEmpty && f.ranges.isEmpty
    && f.awaited.isEmpty && f.highlights.isEmpty

/-- Require a clause too. -/
def require (f : Fragment) (c : Clause) : Fragment := { f with clauses := Clause.add f.clauses c }

/-- The elements of both sets. -/
def joinSets (a b : Std.ExtTreeSet String) : Std.ExtTreeSet String := b.foldl (·.insert ·) a

/-- Add a range request, joined with one that the field has. -/
def addRange (held : Std.ExtTreeMap String RangeRequest) (field : String) (range : RangeRequest) :
    Std.ExtTreeMap String RangeRequest :=
  match held[field]? with
  | some kept => held.insert field (kept.union range)
  | none => held.insert field range

/-- Add to a list what is not in it. -/
def addNew (held : List String) (text : String) : List String :=
  if held.contains text then held else held ++ [text]

/-- What the fragments ask for, with the clauses of the first. -/
def absorb (f other : Fragment) : Fragment :=
  { f with
    facetFields := joinSets f.facetFields other.facetFields
    statsFields := joinSets f.statsFields other.statsFields
    ranges := other.ranges.foldl addRange f.ranges
    awaited := joinSets f.awaited other.awaited
    highlights := other.highlights.foldl addNew f.highlights }

/-- Require and ask for what both fragments do. -/
def merge (f other : Fragment) : Fragment :=
  { f.absorb other with clauses := other.clauses.foldl Clause.add f.clauses }

/-- Require what one of the fragments does, and ask for what any of them does. -/
def anyOf (alternatives : List Fragment) : Fragment :=
  { alternatives.foldl absorb empty with
    clauses := Clause.disjunction (alternatives.map (·.clauses)) }

end Fragment

end FacetSearch

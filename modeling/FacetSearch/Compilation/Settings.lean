import FacetSearch.Index.Statistics
import FacetSearch.Request.Expansion
import FacetSearch.Request.Parameter

set_option autoImplicit false

/-! # Settings of the compiler -/

namespace FacetSearch

structure CompilerSettings where
  /-- What separates the alternatives of one level. -/
  orDelimiter : String := "||"
  /-- The most paths that a parameter may expand to. -/
  maxAlternatives : Nat := 64
  /-- The page size of a request that names none. -/
  defaultRows : Nat := 20
  /-- The largest page size. -/
  maxRows : Nat := 1000
  /-- The buckets of a range over many values. -/
  rangeGroups : Nat := 10
  /-- The buckets of a range over few values. -/
  smallRangeGroups : Nat := 4
  /-- The number of values below which they are few. -/
  smallCountThreshold : Nat := 25
  /-- The mark in front of names that link to related records. -/
  relatedMark : String := "rel--"
deriving DecidableEq, Repr

namespace CompilerSettings

/-- The number of buckets for a field with `count` values; many where the number is not known. -/
def groupsFor (s : CompilerSettings) (count : Option Nat) : Nat :=
  match count with
  | some n => if n < s.smallCountThreshold then s.smallRangeGroups else s.rangeGroups
  | none => s.rangeGroups

/-- How the values of a parameter expand. -/
def expansion (s : CompilerSettings) (p : Parameter) : Expansion where
  parameter := p.name
  levels := p.separator?
  alternatives := s.orDelimiter
  limit := s.maxAlternatives

end CompilerSettings

end FacetSearch

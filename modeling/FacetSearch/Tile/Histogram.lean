import Std.Data.ExtTreeMap
import FacetSearch.Text.Pieces

set_option autoImplicit false

/-! # Tile histograms

Counts per tile key, made coarser by cutting keys to fewer digits. A key's magnitude, up to its first
dash, is no digit and survives the cut. -/

namespace FacetSearch.Histogram

/-- A key with no more than its first `depth` digits. -/
def truncate (key : String) (depth : Nat) : String :=
  match Text.splitFirst "-" key with
  | some (lead, digits) => lead ++ "-" ++ String.ofList (digits.toList.take depth)
  | none => String.ofList (key.toList.take depth)

/-- The length of a key's digits, in octets. -/
def depth (key : String) : Nat :=
  match Text.splitFirst "-" key with
  | some (_, digits) => digits.utf8ByteSize
  | none => key.utf8ByteSize

/-- The counts of keys that agree in their first `depth` digits, added up. -/
def aggregate (counts : List (String × UInt64)) (depth : Nat) : Std.ExtTreeMap String UInt64 :=
  counts.foldl
    (fun held (key, count) =>
      let coarse := truncate key depth
      held.insert coarse (held.getD coarse 0 + count))
    ∅

end FacetSearch.Histogram

import FacetSearch.Index.Reply
import FacetSearch.Navigation.Link
import FacetSearch.Navigation.Page

set_option autoImplicit false

/-! # Facets of ranges

The index counts the values of a range field in many small buckets. Neighbours are merged into few
groups of equal numbers of buckets, each from its first lower end to the lower end of the next group,
and groups without documents are left out. -/

namespace FacetSearch

/-! ## Merging buckets -/

/-- The lower end of a bucket, and its count. -/
structure Bucket where
  low : Binary64
  count : UInt64
deriving DecidableEq, Repr

/-- Adjacent buckets. -/
structure BucketGroup where
  low : Binary64
  high : Binary64
  count : UInt64
deriving DecidableEq, Repr

/-- The list in blocks of `size` items, the last one with what is left. -/
def blocks {α : Type} (size : Nat) (items : List α) : List (List α) :=
  match items with
  | [] => []
  | item :: rest => (item :: rest.take (size - 1)) :: blocks size (rest.drop (size - 1))
termination_by items.length

/-- The number of buckets in a group, when there may be `target` groups. -/
def perGroup (buckets target : Nat) : Nat :=
  let target := max target 1
  (buckets + target - 1) / target

/-- Groups of blocks, the last of which ends at `stop`; none ends below its own low. -/
def groupBlocks (stop : Binary64) : List (List Bucket) → List BucketGroup
  | [] => []
  | block :: rest =>
    let low := (block.head?.map (·.low)).getD stop
    let high := ((rest.head?.bind List.head?).map (·.low)).getD stop
    ⟨low, high.max low, block.foldr (·.count + ·) 0⟩ :: groupBlocks stop rest

/-- Merge buckets in ascending order into at most `target` groups. -/
def mergeBuckets (buckets : List Bucket) (stop : Binary64) (target : Nat) : List BucketGroup :=
  groupBlocks stop (blocks (perGroup buckets.length target) buckets)

/-! ## Options -/

/-- The buckets with a lower end that can be read, in ascending order. -/
def readBuckets (kind : RangeKind) (counts : List FacetCount) : List Bucket :=
  (counts.filterMap fun c =>
      ((Point.parse kind c.value).toOption).map fun low => ⟨low, c.count⟩).mergeSort
    fun a b => a.low.sortKey ≤ b.low.sortKey

/-- The upper end of the last bucket: what the reply says, or else the request, or else the last
    lower end. -/
def upperEnd (kind : RangeKind) (request : RangeRequest) (reply : RangeFacet)
    (buckets : List Bucket) : Binary64 :=
  let parse (text : String) : Option Binary64 := (Point.parse kind text).toOption
  ((reply.stop.bind parse <|> parse request.stop) <|> buckets.getLast?.map (·.low)).getD .zero

/-- A point as readers see it: dates without their time of day. -/
def displayPoint (kind : RangeKind) (x : Binary64) : String :=
  match kind with
  | .numeric => Point.renderNumber x
  | .date => String.ofList ((Point.render kind x).toList.takeWhile (· ≠ 'T'))

/-- The option that a group is. -/
def BucketGroup.option (g : BucketGroup) (l : Links) (params : Params) (m : FacetMeta)
    (kind : RangeKind) : RangeOption :=
  let low := Point.render kind g.low
  let high := Point.render kind g.high
  { label := displayPoint kind g.low ++ " to " ++ displayPoint kind g.high
    low, high
    count := g.count
    link := l.filterLink (m.drill params (low ++ "," ++ high)) }

/-- The facet of a range that was requested and answered, in at most `target` groups. -/
def rangeFacet (l : Links) (params : Params) (m : FacetMeta) (kind : RangeKind)
    (request : RangeRequest) (reply : RangeFacet) (target : Nat) : RangeOptions :=
  let buckets := readBuckets kind reply.buckets
  let groups := mergeBuckets buckets (upperEnd kind request reply buckets) target
  { field := m.field
    parameter := m.parameter.name
    label := m.parentLabel.getD m.field
    kind
    options := (groups.filter (0 < ·.count)).map fun g => g.option l params m kind }

end FacetSearch

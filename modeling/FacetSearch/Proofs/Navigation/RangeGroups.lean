import FacetSearch.Navigation.RangeFacet
import FacetSearch.Proofs.Number.Binary64
import Mathlib

set_option autoImplicit false

/-! # Groups of range buckets

Merging cuts the buckets into consecutive blocks and makes a group of each. Blocks of the rounded-up
quotient of the number of buckets by the number of groups are at most that many
(`length_blocks_perGroup_le`), and as only the cuts are chosen, every bucket is in one block and counts
once (`mergeBuckets_lossless`). The buckets of a reply are sorted before they are merged, so the options
of a range facet lose no documents either, in whatever order the reply has them. -/

namespace FacetSearch

/-! ## Blocks -/

section Blocks

variable {α : Type} (size : Nat) (items : List α)

theorem flatten_blocks : (blocks size items).flatten = items := by
  induction items using blocks.induct size with
  | case1 => rw [blocks, List.flatten_nil]
  | case2 item rest ih =>
      rw [blocks, List.flatten_cons, ih, List.cons_append, List.take_append_drop]

theorem nil_not_mem_blocks : [] ∉ blocks size items := by
  induction items using blocks.induct size with
  | case1 => simp [blocks]
  | case2 item rest ih =>
      rw [blocks, List.mem_cons, not_or]
      exact ⟨(List.cons_ne_nil _ _).symm, ih⟩

theorem blocks_eq_nil_iff : blocks size items = [] ↔ items = [] := by
  cases items with
  | nil => simp [blocks]
  | cons item rest => simp [blocks]

variable {size}

/-- All blocks but the last one are full. -/
theorem length_blocks_mul_lt (hsize : 0 < size) :
    (blocks size items).length * size < items.length + size := by
  induction items using blocks.induct size with
  | case1 => simpa [blocks] using hsize
  | case2 item rest ih =>
      rw [blocks, List.length_cons, List.length_cons, Nat.add_one_mul]
      by_cases hlast : rest.length ≤ size - 1
      · have hnone : blocks size (rest.drop (size - 1)) = [] :=
          (blocks_eq_nil_iff _ _).2 (List.drop_eq_nil_of_le hlast)
        rw [hnone, List.length_nil]
        omega
      · rw [List.length_drop] at ih
        omega

end Blocks

/-- Enough buckets go into a group that there are not too many groups. -/
theorem le_perGroup_mul (buckets target : Nat) :
    buckets ≤ perGroup buckets target * max 1 target := by
  have hpositive : 0 < max target 1 := by omega
  have hceil := Nat.lt_div_mul_add (a := buckets + max target 1 - 1) hpositive
  rw [perGroup, Nat.max_comm 1 target]
  omega

theorem perGroup_pos {buckets : Nat} (h : 0 < buckets) (target : Nat) :
    0 < perGroup buckets target := by
  have hle := le_perGroup_mul buckets target
  by_contra hzero
  rw [Nat.eq_zero_of_not_pos hzero, Nat.zero_mul] at hle
  omega

/-- **Blocks for a number of groups are at most that many.** -/
theorem length_blocks_perGroup_le {α : Type} (items : List α) (target : Nat) :
    (blocks (perGroup items.length target) items).length ≤ max 1 target := by
  cases items with
  | nil => simp [blocks]
  | cons item rest =>
      have hsize : 0 < perGroup (item :: rest).length target := perGroup_pos (by simp) target
      have hfull := length_blocks_mul_lt (item :: rest) hsize
      have hcover := le_perGroup_mul (item :: rest).length target
      refine Nat.lt_succ_iff.1 (Nat.lt_of_mul_lt_mul_right (a := perGroup (item :: rest).length target) ?_)
      rw [Nat.succ_mul, Nat.mul_comm (max 1 target)]
      omega

/-! ## Groups -/

/-- The number of documents in some buckets. -/
def documents (buckets : List Bucket) : Nat := (buckets.map fun b => b.count.toNat).sum

/-- The group stands for a block of buckets: it begins where the first of them does, and has the documents
    of all. -/
structure BucketGroup.Sums (g : BucketGroup) (block : List Bucket) : Prop where
  low : block.head?.map (·.low) = some g.low
  count : g.count.toNat = documents block

theorem toNat_foldr_count {block : List Bucket} (h : documents block < 2 ^ 64) :
    (block.foldr (fun (b : Bucket) n => b.count + n) 0).toNat = documents block := by
  induction block with
  | nil => rfl
  | cons bucket rest ih =>
      rw [documents, List.map_cons, List.sum_cons, ← documents] at h ⊢
      rw [List.foldr_cons, UInt64.toNat_add, ih (by omega), Nat.mod_eq_of_lt h]

section Groups

variable {stop : Binary64} {parts : List (List Bucket)}

theorem length_groupBlocks : (groupBlocks stop parts).length = parts.length := by
  induction parts with
  | nil => rfl
  | cons block rest ih => rw [groupBlocks, List.length_cons, List.length_cons, ih]

theorem documents_flatten (parts : List (List Bucket)) :
    documents parts.flatten = (parts.map documents).sum := by
  induction parts with
  | nil => rfl
  | cons block rest ih =>
      rw [List.flatten_cons, documents, List.map_append, List.sum_append, List.map_cons, List.sum_cons,
        ← ih]
      rfl

theorem sums_groupBlocks (hparts : [] ∉ parts) (htotal : documents parts.flatten < 2 ^ 64) :
    List.Forall₂ BucketGroup.Sums (groupBlocks stop parts) parts := by
  induction parts with
  | nil => exact .nil
  | cons block rest ih =>
      obtain ⟨hblock, hrest⟩ := not_or.1 (mt List.mem_cons.2 hparts)
      rw [documents_flatten, List.map_cons, List.sum_cons, ← documents_flatten] at htotal
      refine .cons ?_ (ih hrest (by omega))
      cases block with
      | nil => exact absurd rfl hblock
      | cons bucket later =>
          exact ⟨rfl, toNat_foldr_count (Nat.lt_of_le_of_lt (Nat.le_add_right _ _) htotal)⟩

/-- Neighbours meet: where one ends the next one begins. -/
theorem isChain_groupBlocks (hparts : [] ∉ parts)
    (hascending : parts.flatten.Pairwise fun a b => a.low.le b.low = true) :
    (groupBlocks stop parts).IsChain fun g g' => g.high.eqv g'.low = true := by
  induction parts with
  | nil => exact .nil
  | cons block rest ih =>
      obtain ⟨hblock, hrest⟩ := not_or.1 (mt List.mem_cons.2 hparts)
      rw [List.flatten_cons, List.pairwise_append] at hascending
      obtain ⟨-, hlater, hacross⟩ := hascending
      have htail := ih hrest hlater
      cases rest with
      | nil => exact .singleton _
      | cons next rest =>
          obtain ⟨hnext, -⟩ := not_or.1 (mt List.mem_cons.2 hrest)
          obtain ⟨first, firsts, rfl⟩ := List.exists_cons_of_ne_nil (Ne.symm hblock)
          obtain ⟨second, seconds, rfl⟩ := List.exists_cons_of_ne_nil (Ne.symm hnext)
          refine .cons_cons ?_ htail
          exact Binary64.eqv_max_of_le (hacross first (by simp) second (by simp))

/-- The last group ends at the end, unless that is below its own low. -/
theorem getLast?_groupBlocks {g : BucketGroup} (h : g ∈ (groupBlocks stop parts).getLast?)
    (hlow : g.low.le stop = true) : g.high.eqv stop = true := by
  induction parts with
  | nil => exact absurd h (by simp [groupBlocks])
  | cons block rest ih =>
      cases rest with
      | nil =>
          obtain rfl := Option.some.inj h
          exact Binary64.eqv_max_of_le hlow
      | cons next rest =>
          refine ih ?_
          rw [groupBlocks, groupBlocks, List.getLast?_cons_cons] at h
          rw [groupBlocks]
          exact h

end Groups

/-! ## Buckets of a reply -/

/-- The number of documents in the buckets of a reply of which the lower end can be read. -/
def readableDocuments (kind : RangeKind) (counts : List FacetCount) : Nat :=
  ((counts.filter fun c => (Point.parse kind c.value).toOption.isSome).map fun c => c.count.toNat).sum

/-- Points on one axis are in the order of their sort keys. -/
theorem Point.exists_place_of_parse (kind : RangeKind) : ∃ place : Int → Int, Monotone place ∧
    ∀ (text : String) (x : Binary64), parse kind text = .ok x → x.place? = some (place x.sortKey) := by
  cases kind with
  | numeric =>
      refine ⟨Binary64.keyPlace, Binary64.monotone_keyPlace, fun text x h => ?_⟩
      refine Binary64.place?_of_isFinite ?_
      simp only [parse, number] at h
      split at h
      · next y hy =>
        obtain rfl : y = x := Except.ok.inj h
        exact (Option.filter_eq_some_iff.1 hy).2
      · exact absurd h (by simp)
  | date =>
      refine ⟨Binary64.roundedPlace, Binary64.monotone_roundedPlace, fun text x h => ?_⟩
      -- opened by hand, as an equation that `simp` could use takes seconds to derive
      simp only [parse] at h
      delta date at h
      dsimp only at h
      split at h
      · next instant _ =>
        obtain rfl : Binary64.ofInt instant = x := Except.ok.inj h
        rw [Binary64.ofInt, Binary64.ofRatio]
        exact Binary64.place?_ofUnits _ _
      · exact absurd h (by simp)

section Replies

variable {kind : RangeKind} {counts : List FacetCount}

theorem exists_parse_of_mem_readBuckets {b : Bucket} (h : b ∈ readBuckets kind counts) :
    ∃ text, Point.parse kind text = .ok b.low := by
  rw [readBuckets, List.mem_mergeSort, List.mem_filterMap] at h
  obtain ⟨c, -, hb⟩ := h
  obtain ⟨low, hlow, rfl⟩ := Option.map_eq_some_iff.1 hb
  refine ⟨c.value, ?_⟩
  cases hparse : Point.parse kind c.value with
  | error e => exact absurd (hparse ▸ hlow) (by simp [Except.toOption])
  | ok x => rw [hparse] at hlow; exact congrArg Except.ok (Option.some.inj hlow)

/-- **The buckets of a reply are merged in ascending order.** -/
theorem pairwise_readBuckets (kind : RangeKind) (counts : List FacetCount) :
    (readBuckets kind counts).Pairwise fun a b => a.low.le b.low = true := by
  obtain ⟨place, hmonotone, hplace⟩ := Point.exists_place_of_parse kind
  have hsorted : (readBuckets kind counts).Pairwise fun a b =>
      decide (a.low.sortKey ≤ b.low.sortKey) = true := by
    refine List.pairwise_mergeSort ?_ ?_ _
    · intro a b c hab hbc
      exact decide_eq_true ((of_decide_eq_true hab).trans (of_decide_eq_true hbc))
    · intro a b
      simpa using le_total a.low.sortKey b.low.sortKey
  refine hsorted.imp_of_mem fun {a b} ha hb hkeys => ?_
  obtain ⟨text, htext⟩ := exists_parse_of_mem_readBuckets ha
  obtain ⟨text', htext'⟩ := exists_parse_of_mem_readBuckets hb
  exact Binary64.le_of_sortKey_le hmonotone (hplace _ _ htext) (hplace _ _ htext')
    (of_decide_eq_true hkeys)

theorem documents_readBuckets (kind : RangeKind) (counts : List FacetCount) :
    documents (readBuckets kind counts) = readableDocuments kind counts := by
  rw [documents, readBuckets, ((List.mergeSort_perm _ _).map _).sum_eq, readableDocuments]
  induction counts with
  | nil => rfl
  | cons c rest ih =>
      rw [List.filterMap_cons, List.filter_cons]
      cases (Point.parse kind c.value).toOption with
      | none => exact ih
      | some low =>
          rw [Option.map_some, Option.isSome_some, if_pos rfl, List.map_cons, List.sum_cons,
            List.map_cons, List.sum_cons, ih]

theorem readableDocuments_of_perm {sent : List FacetCount} (h : sent.Perm counts) :
    readableDocuments kind sent = readableDocuments kind counts :=
  ((h.filter _).map _).sum_eq

end Replies

/-- Groups without documents do not count. -/
theorem sum_count_filter (groups : List BucketGroup) :
    ((groups.filter (0 < ·.count)).map fun g => g.count.toNat).sum
      = (groups.map fun g => g.count.toNat).sum := by
  induction groups with
  | nil => rfl
  | cons g rest ih =>
      rw [List.filter_cons, List.map_cons, List.sum_cons, ← ih]
      by_cases hg : 0 < g.count
      · rw [if_pos (decide_eq_true hg), List.map_cons, List.sum_cons]
      · have hzero : g.count.toNat = 0 := by
          rw [UInt64.lt_iff_toNat_lt] at hg
          exact Nat.eq_zero_of_not_pos hg
        rw [if_neg (by simpa using hg), hzero, Nat.zero_add]

theorem sum_of_sums {groups : List BucketGroup} {parts : List (List Bucket)}
    (h : List.Forall₂ BucketGroup.Sums groups parts) :
    (groups.map fun g => g.count.toNat).sum = documents parts.flatten := by
  rw [documents_flatten]
  induction h with
  | nil => rfl
  | cons hfirst _ ih => rw [List.map_cons, List.sum_cons, List.map_cons, List.sum_cons, hfirst.count, ih]

theorem sum_count_mergeBuckets {buckets : List Bucket} (h : documents buckets < 2 ^ 64)
    (stop : Binary64) (target : Nat) :
    ((mergeBuckets buckets stop target).map fun g => g.count.toNat).sum = documents buckets := by
  have hflatten := flatten_blocks (perGroup buckets.length target) buckets
  have hsums : List.Forall₂ BucketGroup.Sums (mergeBuckets buckets stop target) _ :=
    sums_groupBlocks (nil_not_mem_blocks (perGroup buckets.length target) buckets) (hflatten.symm ▸ h)
  rw [sum_of_sums hsums, hflatten]

/-- **The options of a range facet have the documents of all buckets that can be read.** -/
theorem sum_count_rangeFacet (l : Links) (params : Params) (m : FacetMeta) {kind : RangeKind}
    (request : RangeRequest) {reply : RangeFacet} (target : Nat)
    (h : readableDocuments kind reply.buckets < 2 ^ 64) :
    ((rangeFacet l params m kind request reply target).options.map fun o => o.count.toNat).sum
      = readableDocuments kind reply.buckets := by
  rw [← documents_readBuckets] at h ⊢
  rw [← sum_count_mergeBuckets h
    (upperEnd kind request reply (readBuckets kind reply.buckets)) target, ← sum_count_filter]
  rw [rangeFacet, List.map_map]
  rfl

/-- **Merging range buckets loses nothing.** There are no more groups than asked for. They are made of
    consecutive blocks of buckets that leave none out, so they have the documents of all of them; each ends
    where the next one begins, and the last one at the end. So a range facet shows the documents of all
    buckets that can be read, in whatever order a reply has them. -/
theorem mergeBuckets_lossless {buckets : List Bucket}
    (hascending : buckets.Pairwise fun a b => a.low.le b.low = true)
    (htotal : documents buckets < 2 ^ 64) (stop : Binary64) (target : Nat) :
    (mergeBuckets buckets stop target).length ≤ max 1 target ∧
    (mergeBuckets buckets stop target = [] ↔ buckets = []) ∧
    (∃ parts : List (List Bucket), parts.flatten = buckets ∧ [] ∉ parts ∧
      List.Forall₂ BucketGroup.Sums (mergeBuckets buckets stop target) parts) ∧
    ((mergeBuckets buckets stop target).map fun g => g.count.toNat).sum = documents buckets ∧
    ((mergeBuckets buckets stop target).IsChain fun g g' => g.high.eqv g'.low = true) ∧
    (∀ g ∈ (mergeBuckets buckets stop target).getLast?, g.low.le stop = true →
      g.high.eqv stop = true) ∧
    ∀ (l : Links) (params : Params) (m : FacetMeta) (kind : RangeKind) (request : RangeRequest)
      (reply : RangeFacet), readableDocuments kind reply.buckets < 2 ^ 64 →
      ∀ sent : List FacetCount, sent.Perm reply.buckets →
        (readBuckets kind sent).Pairwise (fun a b => a.low.le b.low = true) ∧
        ((rangeFacet l params m kind request { reply with buckets := sent } target).options.map
          fun o => o.count.toNat).sum = readableDocuments kind reply.buckets := by
  have hflatten := flatten_blocks (perGroup buckets.length target) buckets
  have hparts := nil_not_mem_blocks (perGroup buckets.length target) buckets
  refine ⟨?_, ?_, ⟨_, hflatten, hparts, ?_⟩, sum_count_mergeBuckets htotal stop target, ?_, ?_, ?_⟩
  · rw [mergeBuckets, length_groupBlocks]
    exact length_blocks_perGroup_le buckets target
  · rw [mergeBuckets, ← List.length_eq_zero_iff, length_groupBlocks, List.length_eq_zero_iff,
      blocks_eq_nil_iff]
  · exact sums_groupBlocks hparts (hflatten.symm ▸ htotal)
  · exact isChain_groupBlocks hparts (hflatten.symm ▸ hascending)
  · exact fun g hg hlow => getLast?_groupBlocks hg hlow
  · intro l params m kind request reply hreadable sent hsent
    rw [← readableDocuments_of_perm hsent] at hreadable ⊢
    exact ⟨pairwise_readBuckets kind sent, sum_count_rangeFacet l params m request target hreadable⟩

/-- Three buckets, of which the third one makes a group of its own. -/
def threeBuckets : List Bucket :=
  [⟨.zero, 1⟩, ⟨.finite false 10, 2⟩, ⟨.finite false 20, 4⟩]

/-- They make two groups, and a reply with a bucket that cannot be read has the documents of the other
    one. -/
theorem mergeBuckets_lossless_threeBuckets :
    threeBuckets.Pairwise (fun a b => a.low.le b.low = true) ∧ documents threeBuckets < 2 ^ 64 ∧
    ((mergeBuckets threeBuckets (.finite false 30) 2).map fun g => g.count.toNat).sum = 7 ∧
    ((mergeBuckets threeBuckets (.finite false 30) 2).IsChain fun g g' => g.high.eqv g'.low = true) ∧
    (∀ g ∈ (mergeBuckets threeBuckets (.finite false 30) 2).getLast?, g.low.le (.finite false 30) = true →
      g.high.eqv (.finite false 30) = true) ∧
    readableDocuments .numeric [⟨"unknown", 3⟩, ⟨"0", 2⟩] = 2 ∧
    ∀ (l : Links) (params : Params) (m : FacetMeta) (request : RangeRequest),
      ((rangeFacet l params m .numeric request { buckets := [⟨"unknown", 3⟩, ⟨"0", 2⟩] } 2).options.map
        fun o => o.count.toNat).sum = 2 := by
  have hascending : threeBuckets.Pairwise fun a b => a.low.le b.low = true := by decide
  have htotal : documents threeBuckets < 2 ^ 64 := by decide
  have hreadable : readableDocuments .numeric [⟨"unknown", 3⟩, ⟨"0", 2⟩] = 2 := by decide +kernel
  obtain ⟨-, -, -, hcounts, hchain, hlast, hfacet⟩ :=
    mergeBuckets_lossless hascending htotal (.finite false 30) 2
  refine ⟨hascending, htotal, hcounts, hchain, hlast, hreadable, fun l params m request => ?_⟩
  have hsent := hfacet l params m .numeric request { buckets := [⟨"unknown", 3⟩, ⟨"0", 2⟩] }
    (Nat.lt_of_le_of_lt (Nat.le_of_eq hreadable) (by decide)) _ (List.Perm.refl _)
  exact hsent.2.trans hreadable

end FacetSearch

import FacetSearch.Proofs.Tile.Histogram
import FacetSearch.Proofs.Tile.Keys
import Mathlib

set_option autoImplicit false

/-! # Coarser and coarser histograms

A key that is cut twice is cut to the smaller of the two depths (`truncate_truncate`), since the dash
behind its magnitude survives the first cut. So a histogram that is counted again at another depth is the
histogram of the counts at the smaller depth (`aggregate_toList`), and nothing is lost on the way. -/

namespace FacetSearch.Histogram

open Chronology (splitFirst_of_absent splitFirst_of_dash truncate_of_absent truncate_of_dash)

/-! ## Cuts -/

section Cuts

variable {key : String} {lead rest : List Char}

/-- The digits of a key: what stands behind its first dash, or all of it. -/
def digits (key : String) : List Char :=
  ((Text.splitFirst "-" key).map (·.2.toList)).getD key.toList

theorem digits_of_absent (h : '-' ∉ key.toList) : digits key = key.toList := by
  have hsplit := splitFirst_of_absent h
  rw [String.ofList_toList] at hsplit
  rw [digits, hsplit, Option.map_none, Option.getD_none]

theorem digits_of_dash (hkey : key.toList = lead ++ '-' :: rest) (h : '-' ∉ lead) :
    digits key = rest := by
  have hsplit := splitFirst_of_dash h rest
  rw [← hkey, String.ofList_toList] at hsplit
  rw [digits, hsplit, Option.map_some, Option.getD_some, String.toList_ofList]

theorem depth_eq (key : String) : depth key = (String.ofList (digits key)).utf8ByteSize := by
  unfold depth digits
  split
  · next hsplit => rw [hsplit, Option.map_some, Option.getD_some, String.ofList_toList]
  · next hsplit => rw [hsplit, Option.map_none, Option.getD_none, String.ofList_toList]

theorem digits_truncate (key : String) (a : Nat) : digits (truncate key a) = (digits key).take a := by
  by_cases hdash : '-' ∈ key.toList
  · obtain ⟨lead, rest, hkey, hlead⟩ := List.eq_append_cons_of_mem hdash
    rw [digits_of_dash (truncate_of_dash hkey hlead a) hlead, digits_of_dash hkey hlead]
  · have hcut : '-' ∉ (truncate key a).toList := mt Chronology.dash_mem_truncate_iff.1 hdash
    rw [digits_of_absent hcut, digits_of_absent hdash, truncate_of_absent hdash, String.toList_ofList]

/-- **Cutting a key twice is cutting it to the smaller depth.** -/
theorem truncate_truncate (key : String) (a b : Nat) :
    truncate (truncate key a) b = truncate key (min a b) := by
  rw [← String.toList_inj]
  by_cases hdash : '-' ∈ key.toList
  · obtain ⟨lead, rest, hkey, hlead⟩ := List.eq_append_cons_of_mem hdash
    rw [truncate_of_dash (truncate_of_dash hkey hlead a) hlead, truncate_of_dash hkey hlead,
      List.take_take, Nat.min_comm]
  · have hcut : '-' ∉ (truncate key a).toList := mt Chronology.dash_mem_truncate_iff.1 hdash
    rw [truncate_of_absent hcut, truncate_of_absent hdash, truncate_of_absent hdash]
    simp only [String.toList_ofList, List.take_take, Nat.min_comm]

/-- **Cutting a key to a depth makes it no deeper than that**, and no shallower than it must. -/
theorem depth_truncate (h : ∀ c ∈ digits key, c.toNat < 128) (a : Nat) :
    depth (truncate key a) = min a (depth key) := by
  have hcut : ∀ c ∈ (digits key).take a, c.toNat < 128 := fun c hc => h c (List.mem_of_mem_take hc)
  rw [depth_eq, depth_eq, digits_truncate, Utf8.utf8ByteSize_ascii h, Utf8.utf8ByteSize_ascii hcut,
    List.length_take]

end Cuts

/-! ## Counts -/

section Counts

variable {counts : List (String × UInt64)} {a b : Nat}

/-- Counted under keys that are cut, all counts of keys with a property of the cut key are there. -/
theorem countOf_toList_aggregate (htotal : (counts.map fun c => c.2.toNat).sum < 2 ^ 64)
    (P : String → Prop) [DecidablePred P] :
    countOf P (aggregate counts a).toList = countOf (fun key => P (truncate key a)) counts := by
  -- the keys of the histogram that have the property, and the counts that go to them
  have hnodup : (((aggregate counts a).toList.filter fun c => P c.1).map (·.1)).Nodup :=
    (nodup_keys_aggregate counts a).sublist (List.filter_sublist.map _)
  have hcover : ∀ c ∈ counts.filter fun c => P (truncate c.1 a),
      truncate c.1 a ∈ ((aggregate counts a).toList.filter fun c => P c.1).map (·.1) := by
    intro c hc
    obtain ⟨hmem, hP⟩ := List.mem_filter.1 hc
    have hcut : truncate c.1 a ∈ (aggregate counts a).toList.map (·.1) :=
      mem_keys_aggregate.2 ⟨c, hmem, rfl⟩
    obtain ⟨held, hheld, hkey⟩ := List.mem_map.1 hcut
    exact List.mem_map.2 ⟨held, List.mem_filter.2 ⟨hheld, hkey ▸ hP⟩, hkey⟩
  have hsum := sum_map_countOf (f := (truncate · a)) hnodup hcover
  rw [List.map_map] at hsum
  unfold countOf at hsum ⊢
  rw [← hsum]
  refine congrArg List.sum (List.map_congr_left fun held hheld => ?_)
  obtain ⟨hmem, hP⟩ := List.mem_filter.1 hheld
  rw [(mem_toList_aggregate htotal hmem).2, Function.comp_apply, countOf, List.filter_filter]
  -- what is cut to a key with the property has it
  refine congrArg (fun kept => (List.map _ kept).sum) (List.filter_congr fun c _ => ?_)
  by_cases hc : truncate c.1 a = held.1
  · simp [hc, of_decide_eq_true hP]
  · simp [hc]

theorem getElem?_aggregate (htotal : (counts.map fun c => c.2.toNat).sum < 2 ^ 64) (key : String) :
    (aggregate counts a)[key]?.map UInt64.toNat
      = if ∃ c ∈ counts, truncate c.1 a = key then some (countOf (truncate · a = key) counts)
        else none := by
  split
  · next hcut =>
    obtain ⟨held, hheld, rfl⟩ := List.mem_map.1 (mem_keys_aggregate.2 hcut)
    rw [Std.ExtTreeMap.mem_toList_iff_getElem?_eq_some.1 hheld, Option.map_some,
      (mem_toList_aggregate htotal hheld).2]
  · next hcut =>
    have hnone : key ∉ aggregate counts a := by
      rw [← Std.ExtTreeMap.mem_keys, ← Std.ExtTreeMap.map_fst_toList_eq_keys]
      exact mt mem_keys_aggregate.1 hcut
    rw [Std.ExtTreeMap.getElem?_eq_none hnone, Option.map_none]

/-- **A histogram that is counted again at another depth is the one at the smaller depth.** -/
theorem aggregate_toList (htotal : (counts.map fun c => c.2.toNat).sum < 2 ^ 64) :
    aggregate (aggregate counts a).toList b = aggregate counts (min a b) := by
  refine Std.ExtTreeMap.ext_getElem? fun {key} => ?_
  refine Option.map_injective (fun _ _ => UInt64.toNat_inj.1) ?_
  rw [getElem?_aggregate (by rwa [sum_toList_aggregate htotal]), getElem?_aggregate htotal]
  -- both have the same keys, and under each the same counts
  have hkeys : (∃ c ∈ (aggregate counts a).toList, truncate c.1 b = key) ↔
      ∃ c ∈ counts, truncate c.1 (min a b) = key := by
    constructor
    · rintro ⟨held, hheld, rfl⟩
      obtain ⟨c, hc, hcut⟩ := mem_keys_aggregate.1 (List.mem_map_of_mem hheld)
      exact ⟨c, hc, by rw [← truncate_truncate, hcut]⟩
    · rintro ⟨c, hc, rfl⟩
      have hcut : truncate c.1 a ∈ (aggregate counts a).toList.map (·.1) :=
        mem_keys_aggregate.2 ⟨c, hc, rfl⟩
      obtain ⟨held, hheld, hkey⟩ := List.mem_map.1 hcut
      exact ⟨held, hheld, by rw [hkey, truncate_truncate]⟩
  simp only [hkeys, countOf_toList_aggregate htotal, truncate_truncate]

/-- **Counting by cut keys loses nothing, and counting again makes no difference.** Under each key that
    some key is cut to stand the counts of the keys that are cut to it; all of them add up to the total,
    in whatever order they came; and counting once more at another depth is counting once at the smaller
    depth, as cutting twice is cutting once. -/
theorem aggregate_lossless (htotal : (counts.map fun c => c.2.toNat).sum < 2 ^ 64) (a b : Nat) :
    (∀ key, (aggregate counts a)[key]?.map UInt64.toNat
      = if ∃ c ∈ counts, truncate c.1 a = key then some (countOf (truncate · a = key) counts)
        else none) ∧
    ((aggregate counts a).toList.map fun c => c.2.toNat).sum = (counts.map fun c => c.2.toNat).sum ∧
    (∀ counts', counts.Perm counts' → aggregate counts' a = aggregate counts a) ∧
    aggregate (aggregate counts a).toList b = aggregate counts (min a b) ∧
    (∀ key, truncate (truncate key a) b = truncate key (min a b)) ∧
    ∀ key, (∀ c ∈ digits key, c.toNat < 128) → depth (truncate key a) = min a (depth key) := by
  refine ⟨getElem?_aggregate htotal, sum_toList_aggregate htotal, ?_, aggregate_toList htotal, ?_, ?_⟩
  · exact fun counts' hperm => (aggregate_of_perm hperm).symm
  · exact fun key => truncate_truncate key a b
  · exact fun key hascii => depth_truncate hascii a

/-- Keys with one magnitude, with two dashes, without digits and without a magnitude. -/
def mixedCounts : List (String × UInt64) :=
  [("10m-0123", 5), ("0121", 2), ("10m-", 1), ("1e-5-012", 4), ("10m-013", 3), ("", 6), ("0133", 7)]

theorem aggregate_lossless_mixedCounts :
    (mixedCounts.map fun c => c.2.toNat).sum < 2 ^ 64 ∧
    (aggregate mixedCounts 3)["10m-012"]?.map UInt64.toNat = some 5 ∧
    ((aggregate mixedCounts 3).toList.map fun c => c.2.toNat).sum = 28 ∧
    aggregate mixedCounts.reverse 3 = aggregate mixedCounts 3 ∧
    aggregate (aggregate mixedCounts 3).toList 2 = aggregate mixedCounts 2 ∧
    truncate (truncate "1e-5-012" 3) 2 = truncate "1e-5-012" 2 ∧
    depth (truncate "10m-0123" 3) = 3 := by
  have htotal : (mixedCounts.map fun c => c.2.toNat).sum < 2 ^ 64 := by decide
  have hascii : (digits "10m-0123").all (·.toNat < 128) = true := by decide +kernel
  obtain ⟨hcounts, hsum, hperm, hagain, hcut, hdepth⟩ := aggregate_lossless htotal 3 2
  refine ⟨htotal, ?_, ?_, hperm _ (List.reverse_perm _).symm, hagain, hcut _, ?_⟩
  · rw [hcounts]
    decide +kernel
  · rw [hsum]
    decide
  · rw [hdepth "10m-0123" fun c hc => of_decide_eq_true (List.all_eq_true.1 hascii c hc)]
    decide +kernel

end Counts

end FacetSearch.Histogram

import FacetSearch.Tile.Histogram
import Mathlib

set_option autoImplicit false

/-! # The counts of a histogram

A histogram holds what its keys are cut to, each with the sum of the counts of the keys that are cut to
it, in 64 bits (`mem_toList_aggregate`). It lists them in order, loses no count, and does not depend on
the order of the counts (`sum_toList_aggregate`, `aggregate_of_perm`). -/

namespace FacetSearch.Histogram

variable {counts : List (String × UInt64)} {depth : Nat} {key : String}

/-! ## Sums of counts -/

section Sums

variable {P Q R : String → Prop} [DecidablePred P] [DecidablePred Q] [DecidablePred R]

/-- The counts of the keys with a property, added up. -/
def countOf (P : String → Prop) [DecidablePred P] (counts : List (String × UInt64)) : Nat :=
  ((counts.filter fun c => P c.1).map fun c => c.2.toNat).sum

@[simp] theorem countOf_nil : countOf P [] = 0 := rfl

theorem countOf_cons (c : String × UInt64) (counts : List (String × UInt64)) :
    countOf P (c :: counts) = (if P c.1 then c.2.toNat else 0) + countOf P counts := by
  rw [countOf, List.filter_cons]
  by_cases hc : P c.1
  · simp [hc, countOf]
  · simp [hc, countOf]

theorem countOf_of_perm {counts' : List (String × UInt64)} (h : counts.Perm counts') :
    countOf P counts = countOf P counts' :=
  ((h.filter _).map _).sum_eq

theorem countOf_le_sum : countOf P counts ≤ (counts.map fun c => c.2.toNat).sum := by
  induction counts with
  | nil => simp
  | cons c rest ih =>
      rw [countOf_cons, List.map_cons, List.sum_cons]
      split <;> omega

/-- Two properties that no key has both of. -/
theorem countOf_add (hor : ∀ c ∈ counts, P c.1 ↔ Q c.1 ∨ R c.1)
    (hdisjoint : ∀ c ∈ counts, Q c.1 → ¬ R c.1) :
    countOf P counts = countOf Q counts + countOf R counts := by
  induction counts with
  | nil => simp
  | cons c rest ih =>
      have hrest := ih (fun d hd => hor d (List.mem_cons_of_mem _ hd))
        fun d hd => hdisjoint d (List.mem_cons_of_mem _ hd)
      have hfirst := hor c (List.mem_cons_self ..)
      have hone := hdisjoint c (List.mem_cons_self ..)
      rw [countOf_cons, countOf_cons, countOf_cons, hrest]
      by_cases hQ : Q c.1
      · simp only [hfirst, hQ, hone hQ, true_or, if_true, if_false]
        omega
      · simp only [hfirst, hQ, false_or, if_false]
        omega

/-- Where every key belongs to one of some texts, the counts of the texts are all counts. -/
theorem sum_map_countOf {f : String → String} {keys : List String} (hnodup : keys.Nodup)
    (hcover : ∀ c ∈ counts, f c.1 ∈ keys) :
    (keys.map fun key => countOf (f · = key) counts).sum
      = (counts.map fun c => c.2.toNat).sum := by
  induction counts with
  | nil => simp
  | cons c rest ih =>
      -- the count goes to one text, which stands once among the keys
      have hone : (keys.map fun key => if f c.1 = key then c.2.toNat else 0).sum = c.2.toNat := by
        rw [List.sum_map_eq_nsmul_single (f c.1) _ fun key hne _ => if_neg (Ne.symm hne),
          List.count_eq_one_of_mem hnodup (hcover c (List.mem_cons_self ..)), if_pos rfl, one_smul]
      simp only [countOf_cons, List.sum_map_add, hone,
        ih fun d hd => hcover d (List.mem_cons_of_mem _ hd), List.map_cons, List.sum_cons]

theorem countOf_eq_zero_iff : countOf P counts = 0 ↔ ∀ c ∈ counts, P c.1 → c.2 = 0 := by
  rw [countOf, List.sum_eq_zero_iff]
  simp only [List.mem_map, List.mem_filter, decide_eq_true_eq, forall_exists_index, and_imp,
    Prod.forall]
  constructor
  · intro h key count hmem hP
    exact UInt64.toNat_inj.1 (h _ key count hmem hP rfl)
  · rintro h n key count hmem hP rfl
    rw [h key count hmem hP]
    rfl

end Sums

/-! ## Histograms -/

/-- One count more in a histogram. -/
def addCount (depth : Nat) (held : Std.ExtTreeMap String UInt64) (c : String × UInt64) :
    Std.ExtTreeMap String UInt64 :=
  held.insert (truncate c.1 depth) (held.getD (truncate c.1 depth) 0 + c.2)

theorem aggregate_eq (counts : List (String × UInt64)) (depth : Nat) :
    aggregate counts depth = counts.foldl (addCount depth) ∅ := rfl

theorem mem_foldl_addCount {held : Std.ExtTreeMap String UInt64} :
    key ∈ counts.foldl (addCount depth) held ↔ key ∈ held ∨ ∃ c ∈ counts, truncate c.1 depth = key := by
  induction counts generalizing held with
  | nil => simp
  | cons c rest ih =>
      have hfirst : key ∈ addCount depth held c ↔ truncate c.1 depth = key ∨ key ∈ held := by
        rw [addCount, Std.ExtTreeMap.mem_insert, Std.LawfulEqCmp.compare_eq_iff_eq]
      rw [List.foldl_cons, ih, hfirst, or_comm (b := key ∈ held), or_assoc]
      simp only [List.mem_cons, exists_eq_or_imp]

/-- Every count goes to what its key is cut to. -/
theorem toNat_getD_foldl_addCount {held : Std.ExtTreeMap String UInt64} :
    ((counts.foldl (addCount depth) held).getD key 0).toNat
      = ((held.getD key 0).toNat + countOf (truncate · depth = key) counts) % 2 ^ 64 := by
  induction counts generalizing held with
  | nil =>
      rw [List.foldl_nil, countOf_nil, Nat.add_zero]
      exact (Nat.mod_eq_of_lt (UInt64.toNat_lt _)).symm
  | cons c rest ih =>
      rw [List.foldl_cons, ih, addCount, Std.ExtTreeMap.getD_insert, countOf_cons]
      simp only [Std.LawfulEqCmp.compare_eq_iff_eq]
      by_cases hc : truncate c.1 depth = key
      · subst hc
        rw [if_pos rfl, if_pos rfl, UInt64.toNat_add]
        omega
      · rw [if_neg hc, if_neg hc, Nat.zero_add]

/-- **A histogram holds what its keys are cut to, each with the counts of the keys that are cut to
    it**, as long as all counts together fit into 64 bits. -/
theorem mem_toList_aggregate {count : UInt64}
    (htotal : (counts.map fun c => c.2.toNat).sum < 2 ^ 64)
    (h : (key, count) ∈ (aggregate counts depth).toList) :
    (∃ c ∈ counts, truncate c.1 depth = key) ∧
      count.toNat = countOf (truncate · depth = key) counts := by
  rw [Std.ExtTreeMap.mem_toList_iff_getElem?_eq_some, aggregate_eq] at h
  have hmem : key ∈ counts.foldl (addCount depth) ∅ :=
    Std.ExtTreeMap.isSome_getElem?_iff_mem.1 (by rw [h]; rfl)
  refine ⟨(mem_foldl_addCount.1 hmem).resolve_left (by simp), ?_⟩
  have hsum : ((counts.foldl (addCount depth) ∅).getD key 0).toNat = _ := toNat_getD_foldl_addCount
  rw [Std.ExtTreeMap.getD_eq_getD_getElem?, h, Option.getD_some] at hsum
  have hle : countOf (truncate · depth = key) counts ≤ _ := countOf_le_sum
  rw [hsum, Std.ExtTreeMap.getD_empty, UInt64.toNat_zero, Nat.zero_add, Nat.mod_eq_of_lt (by omega)]

theorem mem_keys_aggregate : key ∈ (aggregate counts depth).toList.map (·.1) ↔
    ∃ c ∈ counts, truncate c.1 depth = key := by
  rw [Std.ExtTreeMap.map_fst_toList_eq_keys, Std.ExtTreeMap.mem_keys, aggregate_eq, mem_foldl_addCount,
    or_iff_right Std.ExtTreeMap.not_mem_empty]

/-- The keys of a histogram come in order, each once. -/
theorem pairwise_toList_aggregate (counts : List (String × UInt64)) (depth : Nat) :
    (aggregate counts depth).toList.Pairwise fun c c' => c.1 < c'.1 :=
  Std.ExtTreeMap.ordered_keys_toList.imp compare_lt_iff_lt.1

theorem nodup_keys_aggregate (counts : List (String × UInt64)) (depth : Nat) :
    ((aggregate counts depth).toList.map (·.1)).Nodup := by
  rw [List.Nodup, List.pairwise_map]
  refine (pairwise_toList_aggregate counts depth).imp ?_
  intro c c' hlt heq
  exact absurd (heq ▸ hlt) (String.lt_irrefl _)

/-- **A histogram loses no count.** -/
theorem sum_toList_aggregate (htotal : (counts.map fun c => c.2.toNat).sum < 2 ^ 64) :
    ((aggregate counts depth).toList.map fun c => c.2.toNat).sum
      = (counts.map fun c => c.2.toNat).sum := by
  have hsum := sum_map_countOf (f := (truncate · depth)) (nodup_keys_aggregate counts depth)
    fun c hc => mem_keys_aggregate.2 ⟨c, hc, rfl⟩
  rw [List.map_map] at hsum
  rw [← hsum]
  refine congrArg List.sum (List.map_congr_left fun c hc => ?_)
  exact (mem_toList_aggregate htotal hc).2

/-- **A histogram does not depend on the order of the counts.** -/
theorem aggregate_of_perm {counts' : List (String × UInt64)} (h : counts.Perm counts') :
    aggregate counts depth = aggregate counts' depth := by
  refine Std.ExtTreeMap.ext_getElem? fun {key} => ?_
  have hmem : key ∈ aggregate counts depth ↔ key ∈ aggregate counts' depth := by
    simp only [aggregate_eq, mem_foldl_addCount, h.mem_iff]
  have hcount : (aggregate counts depth).getD key 0 = (aggregate counts' depth).getD key 0 := by
    rw [← UInt64.toNat_inj, aggregate_eq, aggregate_eq, toNat_getD_foldl_addCount,
      toNat_getD_foldl_addCount, countOf_of_perm h]
  by_cases hkey : key ∈ aggregate counts depth
  · have hkey' := hmem.1 hkey
    rw [Std.ExtTreeMap.getD_eq_getD_getElem?, Std.ExtTreeMap.getD_eq_getD_getElem?,
      Std.ExtTreeMap.getElem?_eq_some_getElem hkey,
      Std.ExtTreeMap.getElem?_eq_some_getElem hkey'] at hcount
    rw [Std.ExtTreeMap.getElem?_eq_some_getElem hkey, Std.ExtTreeMap.getElem?_eq_some_getElem hkey']
    exact congrArg some hcount
  · rw [Std.ExtTreeMap.getElem?_eq_none hkey, Std.ExtTreeMap.getElem?_eq_none (hkey ∘ hmem.2)]

end FacetSearch.Histogram

import FacetSearch.Navigation.Paging
import FacetSearch.Proofs.Navigation.Links
import FacetSearch.Proofs.Number.Decimal
import FacetSearch.Proofs.Text.Trimming

set_option autoImplicit false

/-! # Walking through the pages

Whoever follows the links to the next page from the first one visits every multiple of the number of rows
below the number of results, once each and in order, and then finds no further link: the pages show every
result once (`paging_walk`). All numbers are 64-bit ones; the offset of the last page is at most the
number of results, so nothing that is computed on the way leaves their range. Also from an offset that no
page starts at, every link leads to results, and to another offset. -/

namespace FacetSearch

/-! ## Offsets of links -/

namespace Links

variable {l : Links} {p : Params}

/-- The request that a link leads to: what stands behind the text that every link starts with, and a
    question mark. -/
def request (l : Links) (link : String) : Params :=
  Params.parse (String.ofList (link.toList.drop (l.base.toList.length + 1)))

theorem request_link (l : Links) (h : p.WellFormed) : l.request (l.link p) = p := by
  have hquery : String.ofList ((l.link p).toList.drop (l.base.toList.length + 1))
      = p.toQueryString := by
    unfold link
    dsimp only
    split
    · next hempty =>
      rw [List.drop_eq_nil_of_le (Nat.le_succ _), String.isEmpty_iff.1 hempty, String.ofList_nil]
    · rw [String.toList_append, String.toList_append, List.append_assoc, List.drop_append]
      simp
  rw [request, hquery, Params.parse_toQueryString h]

/-- As long as links start with a text without question marks, that is what stands behind the first
    one. -/
theorem request_eq_target (hbase : '?' ∉ l.base.toList) (h : p.WellFormed) :
    l.request (l.link p) = target (l.link p) := by
  rw [request_link l h, target_link hbase h]

/-- The offset that a link leads to, as compilation reads it: the last one that the request states. -/
def offset? (l : Links) (link : String) : Option Nat :=
  ((l.request link).values Parameter.start.name).getLast?.bind fun raw =>
    (Compiler.countOf .start raw).toOption

end Links

namespace Compiler

theorem countOf_toString (p : Parameter) {n : Nat} (h : n ≤ Decimal.greatestWord) :
    countOf p (toString n) = .ok n := by
  have hclear : ∀ c ∈ (toString n).toList, Text.isBlank c = false := fun c hc =>
    Text.isBlank_of_isDigit (Decimal.isDigit_of_mem_toString hc)
  have htrim : Text.trim (toString n) = toString n := by
    rw [Text.trim, Text.trimChars_eq_self_iff.2, String.ofList_toList]
    exact ⟨fun c hc => hclear c (List.mem_of_head? hc), fun c hc => hclear c (List.mem_of_getLast? hc)⟩
  -- opened by hand, as its equation takes seconds to derive
  delta countOf
  rw [htrim, Decimal.nat?_toString h]

end Compiler

/-- All links to other pages, from the first page to the last. -/
def Paging.links (paging : Paging) : List String :=
  [paging.first, paging.previous, paging.next, paging.last].reduceOption

section Offsets

variable {l : Links} {p : Params} {total start rows : Nat}

theorem Links.request_pageLink (l : Links) (h : p.WellFormed) (offset : Nat) :
    l.request (l.pageLink p offset) = p.withSingle Parameter.start.name (toString offset) :=
  request_link l (h.withSingle _ _)

/-- **A link to an offset leads to it.** -/
theorem Links.offset?_pageLink (l : Links) (h : p.WellFormed) {offset : Nat}
    (hoffset : offset ≤ Decimal.greatestWord) : l.offset? (l.pageLink p offset) = some offset := by
  rw [offset?, request_pageLink l h, Params.withSingle, Params.values_edit, List.getLast?_singleton,
    Option.bind_some, Compiler.countOf_toString _ hoffset]
  rfl

theorem paging_eq (htotal : 0 < total) (hrows : 0 < rows) :
    paging l p total start rows =
      { first := if 0 < start then some (l.pageLink p 0) else none
        previous := if 0 < start then some (l.pageLink p (start - rows)) else none
        next := if nextStart start rows < total then some (l.pageLink p (nextStart start rows)) else none
        last := if start < lastStart total rows then some (l.pageLink p (lastStart total rows))
          else none } := by
  rw [paging, if_neg (by omega)]
  simp only [decide_eq_true_eq]

/-- In front of the greatest number the next page is as many rows further, if there are results. -/
theorem next_paging (htotal : total ≤ Decimal.greatestWord) (hrows : 0 < rows) (hstart : start < total) :
    (paging l p total start rows).next
      = if start + rows < total then some (l.pageLink p (start + rows)) else none := by
  rw [paging_eq (Nat.zero_lt_of_lt hstart) hrows]
  by_cases hmore : start + rows < total
  · have hnext : nextStart start rows = start + rows := Nat.min_eq_left (by omega)
    simp only [hnext, hmore, if_true]
  · have hnext : ¬ nextStart start rows < total := by
      unfold nextStart
      omega
    simp only [hnext, hmore, if_false]

/-- Every link that is offered is there for a reason: which one, and the offset that it states. -/
theorem exists_of_mem_links {link : String} (h : link ∈ (paging l p total start rows).links) :
    0 < rows ∧ 0 < total ∧ ∃ offset, link = l.pageLink p offset ∧
      ((0 < start ∧ (offset = 0 ∨ offset = start - rows)) ∨
        (offset = nextStart start rows ∧ offset < total) ∨
        (offset = lastStart total rows ∧ start < offset)) := by
  by_cases hnone : rows = 0 ∨ total = 0
  · rw [paging, if_pos hnone] at h
    exact absurd h (by simp [Paging.links, List.reduceOption])
  · obtain ⟨hrows, htotal⟩ : 0 < rows ∧ 0 < total := by omega
    refine ⟨hrows, htotal, ?_⟩
    rw [paging_eq htotal hrows, Paging.links, List.reduceOption_mem_iff] at h
    simp only [List.mem_cons, List.not_mem_nil, or_false] at h
    rcases h with h | h | h | h
    · obtain ⟨hstart, hlink⟩ := Option.some_eq_ite_none_right.1 h
      exact ⟨0, Option.some.inj hlink, .inl ⟨hstart, .inl rfl⟩⟩
    · obtain ⟨hstart, hlink⟩ := Option.some_eq_ite_none_right.1 h
      exact ⟨_, Option.some.inj hlink, .inl ⟨hstart, .inr rfl⟩⟩
    · obtain ⟨hnext, hlink⟩ := Option.some_eq_ite_none_right.1 h
      exact ⟨_, Option.some.inj hlink, .inr (.inl ⟨rfl, hnext⟩)⟩
    · obtain ⟨hlast, hlink⟩ := Option.some_eq_ite_none_right.1 h
      exact ⟨_, Option.some.inj hlink, .inr (.inr ⟨rfl, hlast⟩)⟩

end Offsets

/-! ## Where pages start -/

/-- Where pages start: at the multiples of the number of rows below the number of results. -/
def pageStarts (total rows : Nat) : List Nat :=
  (List.range ((total - 1) / rows + 1)).map (· * rows)

/-- The results on the page at an offset. -/
def shownResults (total rows start : Nat) : List Nat :=
  List.range' start (min (start + rows) total - start)

section Starts

variable {total rows : Nat}

theorem lastStart_lt (htotal : 0 < total) : lastStart total rows < total := by
  have hle : lastStart total rows ≤ total - 1 := Nat.div_mul_le_self _ _
  omega

theorem mem_pageStarts_iff (htotal : 0 < total) (hrows : 0 < rows) {start : Nat} :
    start ∈ pageStarts total rows ↔ rows ∣ start ∧ start < total := by
  rw [pageStarts, List.mem_map]
  constructor
  · rintro ⟨k, hk, rfl⟩
    have hle : k * rows ≤ lastStart total rows :=
      Nat.mul_le_mul_right _ (Nat.lt_succ_iff.1 (List.mem_range.1 hk))
    exact ⟨Nat.dvd_mul_left rows k, hle.trans_lt (lastStart_lt htotal)⟩
  · rintro ⟨⟨k, rfl⟩, hlt⟩
    refine ⟨k, List.mem_range.2 (Nat.lt_succ_iff.2 ((Nat.le_div_iff_mul_le hrows).2 ?_)),
      Nat.mul_comm k rows⟩
    rw [Nat.mul_comm]
    omega

theorem lastStart_mem (total rows : Nat) : lastStart total rows ∈ pageStarts total rows :=
  List.mem_map.2 ⟨_, List.mem_range.2 (Nat.lt_succ_self _), rfl⟩

/-- **The last page starts at the greatest multiple of the number of rows below the number of
    results.** -/
theorem isGreatest_lastStart (htotal : 0 < total) (hrows : 0 < rows) :
    IsGreatest {start | rows ∣ start ∧ start < total} (lastStart total rows) := by
  refine ⟨(mem_pageStarts_iff htotal hrows).1 (lastStart_mem total rows), ?_⟩
  intro start hstart
  obtain ⟨k, hk, rfl⟩ := List.mem_map.1 ((mem_pageStarts_iff htotal hrows).2 hstart)
  exact Nat.mul_le_mul_right _ (Nat.lt_succ_iff.1 (List.mem_range.1 hk))

theorem pairwise_pageStarts (hrows : 0 < rows) : (pageStarts total rows).Pairwise (· < ·) :=
  List.pairwise_map.2 (List.pairwise_lt_range.imp fun hlt => Nat.mul_lt_mul_of_pos_right hlt hrows)

theorem getLast?_pageStarts (total rows : Nat) :
    (pageStarts total rows).getLast? = some (lastStart total rows) := by
  rw [pageStarts, List.range_succ, List.map_append, List.map_singleton, List.getLast?_concat]
  rfl

/-- Behind a page there is another one, unless it is the last. -/
theorem add_lt_iff_of_mem (htotal : 0 < total) (hrows : 0 < rows) {start : Nat}
    (h : start ∈ pageStarts total rows) : start + rows < total ↔ start < lastStart total rows := by
  obtain ⟨hdvd, hlt⟩ := (mem_pageStarts_iff htotal hrows).1 h
  obtain ⟨hlast, hgreatest⟩ := isGreatest_lastStart htotal hrows
  constructor
  · intro hmore
    have hle := hgreatest ⟨hdvd.add (dvd_refl rows), hmore⟩
    omega
  · intro hbefore
    have hle : rows ≤ lastStart total rows - start :=
      Nat.le_of_dvd (by omega) (Nat.dvd_sub hlast.1 hdvd)
    have := hlast.2
    omega

/-- The first pages show what is in front of the next one. -/
theorem flatMap_shownResults_range (n : Nat) :
    ((List.range n).map (· * rows)).flatMap (shownResults total rows)
      = List.range (min (n * rows) total) := by
  induction n with
  | zero => simp
  | succ n ih =>
      rw [List.range_succ, List.map_append, List.flatMap_append, ih, List.map_singleton,
        List.flatMap_singleton, shownResults, List.range_eq_range', List.range_eq_range',
        Nat.add_one_mul]
      rcases Nat.le_total (n * rows) total with hle | hle
      · have happend (m : Nat) :
            List.range' 0 (n * rows) ++ List.range' (n * rows) m = List.range' 0 (n * rows + m) := by
          simpa using @List.range'_append_1 0 (n * rows) m
        rw [Nat.min_eq_left hle, happend]
        congr 1
        omega
      · rw [Nat.min_eq_right hle, Nat.min_eq_right (by omega), Nat.sub_eq_zero_of_le hle,
          List.range'_zero, List.append_nil]

/-- **The pages show every result once, in order.** -/
theorem flatMap_shownResults (hrows : 0 < rows) :
    (pageStarts total rows).flatMap (shownResults total rows) = List.range total := by
  have hcover : total ≤ ((total - 1) / rows + 1) * rows := by
    have := Nat.lt_div_mul_add (a := total - 1) hrows
    rw [Nat.add_one_mul]
    omega
  rw [pageStarts, flatMap_shownResults_range, Nat.min_eq_right hcover]

end Starts

/-! ## From page to page -/

/-- Who follows the links to the next page visits these offsets, the given one first, and then finds no
    further link: each link leads to a request, which says at what offset the next page is. -/
inductive Visits (l : Links) (total rows : Nat) : Params → Nat → List Nat → Prop where
  | stop {p : Params} {start : Nat} (hnext : (paging l p total start rows).next = none) :
    Visits l total rows p start [start]
  | turn {p : Params} {start after : Nat} {link : String} {rest : List Nat}
    (hnext : (paging l p total start rows).next = some link)
    (hafter : l.offset? link = some after)
    (hrest : Visits l total rows (l.request link) after rest) :
    Visits l total rows p start (start :: rest)

/-- What the links of a page lead to: the first and the last page, and the next page leads back. The last
    page alone has no link to the last page. -/
structure LeadsAround (l : Links) (total rows : Nat) (p : Params) (start : Nat) : Prop where
  first : ∀ link ∈ (paging l p total start rows).first, l.offset? link = some 0
  last : ∀ link ∈ (paging l p total start rows).last,
    l.offset? link = some (lastStart total rows)
  last_absent : (paging l p total start rows).last = none ↔ start = lastStart total rows
  back : ∀ link ∈ (paging l p total start rows).next, ∃ after back,
    l.offset? link = some after ∧
    (paging l (l.request link) total after rows).previous = some back ∧
    l.offset? back = some start

section Walks

variable {l : Links} {p : Params} {total rows : Nat}

/-- The pages from the one after `k` others are visited, and no further ones. -/
theorem visits_iff_of_add (htotal : 0 < total)
    (hword : total ≤ Decimal.greatestWord) (hrows : 0 < rows) {k n : Nat}
    (hn : k + n = (total - 1) / rows) (h : p.WellFormed) (offsets : List Nat) :
    Visits l total rows p (k * rows) offsets
      ↔ offsets = (List.range' k (n + 1)).map (· * rows) := by
  have hmem {k : Nat} (hk : k ≤ (total - 1) / rows) : k * rows ∈ pageStarts total rows :=
    List.mem_map.2 ⟨k, List.mem_range.2 (Nat.lt_succ_of_le hk), rfl⟩
  have hlt {k : Nat} (hk : k ≤ (total - 1) / rows) : k * rows < total :=
    ((mem_pageStarts_iff htotal hrows).1 (hmem hk)).2
  induction n generalizing k p offsets with
  | zero =>
      -- the last page has no link to a next one
      have hlast : ¬ k * rows + rows < total := by
        rw [add_lt_iff_of_mem htotal hrows (hmem (by omega)), lastStart, ← hn]
        exact Nat.lt_irrefl _
      have hnext := next_paging (l := l) (p := p) hword hrows (hlt (k := k) (by omega))
      rw [if_neg hlast] at hnext
      constructor
      · intro hvisits
        cases hvisits with
        | stop => rfl
        | turn hturn => exact absurd (hnext.symm.trans hturn) (by simp)
      · rintro rfl
        exact .stop hnext
  | succ n ih =>
      have hmore : (k + 1) * rows < total := hlt (by omega)
      have hnext := next_paging (l := l) (p := p) hword hrows (hlt (k := k) (by omega))
      rw [← Nat.add_one_mul, if_pos hmore] at hnext
      have hoffset := l.offset?_pageLink h (Nat.le_trans hmore.le hword)
      have hrest := ih (k := k + 1) (by omega) (h.withSingle Parameter.start.name
        (toString ((k + 1) * rows)))
      rw [← Links.request_pageLink l h] at hrest
      rw [List.range'_succ, List.map_cons]
      constructor
      · intro hvisits
        cases hvisits with
        | stop hstop => exact absurd (hnext.symm.trans hstop) (by simp)
        | turn hturn hafter hlater =>
            obtain rfl := Option.some.inj (hnext.symm.trans hturn)
            obtain rfl := Option.some.inj (hoffset.symm.trans hafter)
            rw [(hrest _).1 hlater]
      · rintro rfl
        exact .turn hnext hoffset ((hrest _).2 rfl)

theorem visits_iff (htotal : 0 < total)
    (hword : total ≤ Decimal.greatestWord) (hrows : 0 < rows) (h : p.WellFormed)
    (offsets : List Nat) : Visits l total rows p 0 offsets ↔ offsets = pageStarts total rows := by
  rw [pageStarts, List.range_eq_range', ← visits_iff_of_add htotal hword hrows (Nat.zero_add _) h,
    Nat.zero_mul]

theorem leadsAround (htotal : 0 < total)
    (hword : total ≤ Decimal.greatestWord) (hrows : 0 < rows) (h : p.WellFormed) {start : Nat}
    (hstart : start ∈ pageStarts total rows) : LeadsAround l total rows p start := by
  obtain ⟨hfirst, -, -, hlast⟩ := eq_pageLink_of_mem_paging l p total start rows
  have hend : start ≤ lastStart total rows :=
    (isGreatest_lastStart htotal hrows).2 ((mem_pageStarts_iff htotal hrows).1 hstart)
  have hlt : lastStart total rows < total := lastStart_lt htotal
  refine ⟨?_, ?_, ?_, ?_⟩
  · intro link hlink
    rw [hfirst link hlink]
    exact l.offset?_pageLink h (Nat.zero_le _)
  · intro link hlink
    rw [hlast link hlink]
    exact l.offset?_pageLink h (by omega)
  · rw [paging_eq htotal hrows]
    simp only [ite_eq_right_iff, reduceCtorEq, imp_false]
    omega
  · intro link hlink
    rw [next_paging hword hrows (by omega), Option.mem_def] at hlink
    obtain ⟨hmore, hlink⟩ := Option.some_eq_ite_none_right.1 hlink.symm
    obtain rfl := Option.some.inj hlink
    refine ⟨start + rows, l.pageLink (l.request (l.pageLink p (start + rows))) (start + rows - rows),
      l.offset?_pageLink h (by omega), ?_, ?_⟩
    · rw [paging_eq htotal hrows]
      exact if_pos (by omega)
    · rw [Nat.add_sub_cancel, Links.request_pageLink l h]
      exact l.offset?_pageLink (h.withSingle _ _) (by omega)

/-- The offsets that links state are 64-bit numbers; from where there are results they lead to results,
    elsewhere. -/
theorem offset?_of_mem_links (hword : total ≤ Decimal.greatestWord)
    (h : p.WellFormed) {start : Nat} (hstart : start ≤ Decimal.greatestWord) {link : String}
    (hlink : link ∈ (paging l p total start rows).links) :
    ∃ offset, l.offset? link = some offset ∧ offset ≤ Decimal.greatestWord ∧
      (start < total → offset < total ∧ offset ≠ start) := by
  obtain ⟨hrows, htotal, offset, rfl, hoffset⟩ := exists_of_mem_links hlink
  have hlast : lastStart total rows < total := lastStart_lt htotal
  have hle : offset ≤ Decimal.greatestWord := by
    unfold nextStart at hoffset
    omega
  refine ⟨offset, l.offset?_pageLink h hle, hle, fun hresults => ?_⟩
  unfold nextStart at hoffset
  omega

end Walks

/-- **Walking through the pages.** From the first page on the links to the next one lead to all pages, each
    once and in order, and the pages show every result once. Every page leads to the first, the last and
    back, whatever else the request states. From any offset with results, links lead to others with
    results. -/
theorem paging_walk (l : Links) {p : Params} (h : p.WellFormed)
    {total rows : UInt64} (htotal : 1 ≤ total) (hrows : 1 ≤ rows) :
    ((total - 1) / rows * rows).toNat = lastStart total.toNat rows.toNat ∧
    IsGreatest {start | rows.toNat ∣ start ∧ start < total.toNat}
      (lastStart total.toNat rows.toNat) ∧
    (∀ offsets, Visits l total.toNat rows.toNat p 0 offsets
      ↔ offsets = pageStarts total.toNat rows.toNat) ∧
    (pageStarts total.toNat rows.toNat).Pairwise (· < ·) ∧
    (pageStarts total.toNat rows.toNat).getLast? = some (lastStart total.toNat rows.toNat) ∧
    (pageStarts total.toNat rows.toNat).flatMap (shownResults total.toNat rows.toNat)
      = List.range total.toNat ∧
    (∀ start ∈ pageStarts total.toNat rows.toNat, ∀ q : Params, q.WellFormed →
      LeadsAround l total.toNat rows.toNat q start) ∧
    ∀ start : UInt64, ∀ link ∈ (paging l p total.toNat start.toNat rows.toNat).links,
      ∃ offset : UInt64, l.offset? link = some offset.toNat ∧
        (start < total → offset < total ∧ offset ≠ start) := by
  have hbound (n : UInt64) : n.toNat ≤ Decimal.greatestWord := Nat.le_sub_one_of_lt n.toNat_lt
  have htotal' : 0 < total.toNat := UInt64.le_iff_toNat_le.1 htotal
  have hrows' : 0 < rows.toNat := UInt64.le_iff_toNat_le.1 hrows
  refine ⟨?_, isGreatest_lastStart htotal' hrows', visits_iff htotal' (hbound _) hrows' h,
    pairwise_pageStarts hrows', getLast?_pageStarts _ _, flatMap_shownResults hrows',
    fun start hstart q hq => leadsAround htotal' (hbound _) hrows' hq hstart, ?_⟩
  · have hlt : lastStart total.toNat rows.toNat < 2 ^ 64 :=
      (lastStart_lt htotal').trans total.toNat_lt
    rw [UInt64.toNat_mul, UInt64.toNat_div, UInt64.toNat_sub_of_le _ _ htotal]
    exact Nat.mod_eq_of_lt hlt
  · intro start link hlink
    obtain ⟨offset, hoffset, hle, hrange⟩ := offset?_of_mem_links (hbound _) h (hbound _) hlink
    have hnat : (UInt64.ofNat offset).toNat = offset :=
      UInt64.toNat_ofNat_of_lt' (Nat.lt_of_le_pred (by decide) hle)
    refine ⟨UInt64.ofNat offset, by rw [hnat, hoffset], fun hresults => ?_⟩
    rw [UInt64.lt_iff_toNat_lt, hnat]
    refine ⟨(hrange (UInt64.lt_iff_toNat_lt.1 hresults)).1, ?_⟩
    rintro rfl
    exact (hrange (UInt64.lt_iff_toNat_lt.1 hresults)).2 hnat.symm

/-- Five pages of a request, the last of them with fewer results. -/
theorem paging_walk_fivePages :
    (⟨[("rows", ["20"])]⟩ : Params).WellFormed ∧ (1 : UInt64) ≤ 95 ∧ (1 : UInt64) ≤ 20 ∧
    (∀ offsets, Visits ⟨"/query/"⟩ 95 20 ⟨[("rows", ["20"])]⟩ 0 offsets
      ↔ offsets = [0, 20, 40, 60, 80]) ∧
    shownResults 95 20 80 = List.range' 80 15 ∧
    LeadsAround ⟨"/query/"⟩ 95 20 ⟨[("rows", ["20"])]⟩ 40 := by
  have hformed : (⟨[("rows", ["20"])]⟩ : Params).WellFormed :=
    ⟨by unfold Params.DistinctNames; decide, by decide⟩
  have htotal : (1 : UInt64) ≤ 95 := by decide
  have hrows : (1 : UInt64) ≤ 20 := by decide
  have hwalk := paging_walk ⟨"/query/"⟩ hformed htotal hrows
  obtain ⟨-, -, hvisits, -, -, -, haround, -⟩ := hwalk
  exact ⟨hformed, htotal, hrows, hvisits, by decide, haround 40 (by decide) _ hformed⟩

end FacetSearch

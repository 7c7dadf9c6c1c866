import FacetSearch.Proofs.Navigation.TileCounts
import FacetSearch.Proofs.Tile.Truncation

set_option autoImplicit false

/-! # Options of tiles

A facet of tiles offers what its keys are cut to, each once and with all counts of the keys that are cut
to it. As a key that is read can still be read when it is cut, nothing is left out, so the options have
the counts of all keys between them; and as they are listed by a total order, the order in which the
index counted the keys does not show (`tileFacets_tally`). -/

namespace FacetSearch

/-! ## Tallies -/

/-- The options offer what the keys are cut to, each once, and share out the counts of the keys. -/
structure Tallies {α : Type} (key : α → String) (count : α → UInt64) (counts : List FacetCount)
    (depth : Nat) (options : List α) : Prop where
  nodup_keys : (options.map key).Nodup
  mem_keys : ∀ text, text ∈ options.map key ↔ ∃ f ∈ counts, Histogram.truncate f.value depth = text
  count_eq : ∀ o ∈ options,
    (count o).toNat = countWhere (Histogram.truncate · depth = key o) counts
  sum_counts : (options.map fun o => (count o).toNat).sum = (counts.map fun f => f.count.toNat).sum

variable {l : Links} {params : Params} {counts counts' : List FacetCount} {depth : Nat}

theorem mem_keys_tileCounts {text : String} : text ∈ (tileCounts counts depth).map (·.1) ↔
    ∃ f ∈ counts, Histogram.truncate f.value depth = text := by
  rw [tileCounts, Histogram.mem_keys_aggregate]
  simp only [List.mem_map, exists_exists_and_eq_and]

/-- What holds of the keys when they are cut holds of the keys that are counted. -/
theorem forall_mem_tileCounts {P : String → Prop}
    (h : ∀ f ∈ counts, P (Histogram.truncate f.value depth)) :
    ∀ c ∈ tileCounts counts depth, P c.1 := by
  intro c hc
  obtain ⟨f, hf, htext⟩ := mem_keys_tileCounts.1 (List.mem_map_of_mem hc)
  exact htext ▸ h f hf

theorem tileCounts_of_perm (h : counts.Perm counts') (depth : Nat) :
    tileCounts counts depth = tileCounts counts' depth := by
  rw [tileCounts, tileCounts, Histogram.aggregate_of_perm (h.map _)]

/-- Options that are the counted keys, in whatever order, are a tally of the counts. -/
theorem tallies_of_perm {α : Type} {key : α → String} {count : α → UInt64} {options : List α}
    (htotal : (counts.map fun f => f.count.toNat).sum < 2 ^ 64)
    (h : (options.map fun o => (key o, count o)).Perm (tileCounts counts depth)) :
    Tallies key count counts depth options := by
  have htotal' : ((counts.map fun f => (f.value, f.count)).map fun c => c.2.toNat).sum < 2 ^ 64 := by
    rwa [List.map_map]
  have hkeys : (options.map key).Perm ((tileCounts counts depth).map (·.1)) := by
    have hfst := h.map Prod.fst
    rwa [List.map_map] at hfst
  refine ⟨hkeys.nodup_iff.2 (Histogram.nodup_keys_aggregate _ _), fun text => ?_, fun o ho => ?_, ?_⟩
  · rw [hkeys.mem_iff, mem_keys_tileCounts]
  · have hmem := h.mem_iff.1 (List.mem_map_of_mem (f := fun o => (key o, count o)) ho)
    exact (Histogram.mem_toList_aggregate htotal' hmem).2
  · have hsum := (h.map fun c => c.2.toNat).sum_eq
    rw [List.map_map, tileCounts, Histogram.sum_toList_aggregate htotal', List.map_map] at hsum
    exact hsum

/-! ## Intervals -/

namespace ChronoOption

/-- What options are listed by: the earliest year, then the latest year backwards, then the key. -/
def rank (o : ChronoOption) : ℤ ×ₗ ℤᵒᵈ ×ₗ String :=
  toLex (o.earliestYear, toLex (OrderDual.toDual o.latestYear, o.key))

theorem before_iff {a b : ChronoOption} : a.before b = true ↔ a.rank ≤ b.rank := by
  simp only [before, rank, Prod.Lex.toLex_le_toLex, OrderDual.toDual_lt_toDual, OrderDual.toDual_inj,
    Bool.or_eq_true, Bool.and_eq_true, decide_eq_true_eq]

theorem key_eq_of_rank_eq {a b : ChronoOption} (h : a.rank = b.rank) : a.key = b.key :=
  congrArg (fun r => (ofLex (ofLex r).2).2) h

/-- Options with different keys are listed by rank. -/
theorem pairwise_mergeSort_before {options : List ChronoOption} (h : (options.map key).Nodup) :
    (options.mergeSort before).Pairwise fun a b => a.rank < b.rank := by
  have hsorted : (options.mergeSort before).Pairwise fun a b => a.before b = true := by
    refine List.pairwise_mergeSort ?_ ?_ options
    · intro a b c hab hbc
      rw [before_iff] at hab hbc ⊢
      exact hab.trans hbc
    · intro a b
      rw [Bool.or_eq_true, before_iff, before_iff]
      exact le_total a.rank b.rank
  have hkeys : ((options.mergeSort before).map key).Nodup :=
    ((List.mergeSort_perm options before).map key).nodup_iff.2 h
  rw [List.Nodup, List.pairwise_map] at hkeys
  refine hsorted.imp₂ ?_ hkeys
  intro a b hbefore hne
  exact lt_of_le_of_ne (before_iff.1 hbefore) fun heq => hne (key_eq_of_rank_eq heq)

end ChronoOption

/-! ## Reading what was cut -/

/-- Where everything is kept and can be told from what it becomes, nothing is lost. -/
theorem map_filterMap_of_forall {α β : Type} {f : α → Option β} {g : β → α} {values : List α}
    (h : ∀ a ∈ values, ∃ b, f a = some b ∧ g b = a) : (values.filterMap f).map g = values := by
  rw [List.map_filterMap]
  calc values.filterMap (fun a => (f a).map g) = values.filterMap some := by
        refine List.filterMap_congr fun a ha => ?_
        obtain ⟨b, hb, hg⟩ := h a ha
        rw [hb, Option.map_some, hg]
    _ = values := List.filterMap_some

/-- What a key is offered as that can be read. -/
theorem chronoOption?_of_decode {key : String} {span : Chronology.Span}
    (h : Chronology.decode key = .ok span) (count : UInt64) :
    chronoOption? l params key count = some {
      key, count, earliestYear := span.earliestYear, latestYear := span.latestYear
      link := tileLink l params .chrono key } := by
  rw [chronoOption?, h]

theorem of_geoOption? {key : String} {count : UInt64} {o : GeoOption}
    (h : geoOption? l params key count = some o) : Quadkey.decode o.key = .ok o.bounds := by
  unfold geoOption? at h
  split at h
  · next bounds hbounds =>
    obtain rfl := Option.some.inj h
    exact hbounds
  · exact absurd h (by simp)

theorem geoOption?_of_decode {key : String} {bounds : Quadkey.Bounds}
    (h : Quadkey.decode key = .ok bounds) (count : UInt64) :
    geoOption? l params key count
      = some { key, count, bounds, link := tileLink l params .geo key } := by
  rw [geoOption?, h]

theorem perm_chronoOptions (l : Links) (params : Params)
    (hcut : ∀ f ∈ counts, ∃ span,
      Chronology.decode (Histogram.truncate f.value depth) = .ok span) :
    ((chronoFacet l params counts depth).options.map fun o => (o.key, o.count)).Perm
      (tileCounts counts depth) := by
  rw [chronoFacet]
  refine ((List.mergeSort_perm _ ChronoOption.before).map _).trans (List.Perm.of_eq ?_)
  refine map_filterMap_of_forall fun c hc => ?_
  obtain ⟨span, hspan⟩ := forall_mem_tileCounts
    (P := fun key => ∃ span, Chronology.decode key = .ok span) hcut c hc
  exact ⟨_, chronoOption?_of_decode hspan c.2, rfl⟩

theorem map_geoOptions (l : Links) (params : Params)
    (hcut : ∀ f ∈ counts, ∃ bounds,
      Quadkey.decode (Histogram.truncate f.value depth) = .ok bounds) :
    (geoFacet l params counts depth).options.map (fun o => (o.key, o.count))
      = tileCounts counts depth := by
  refine map_filterMap_of_forall fun c hc => ?_
  obtain ⟨bounds, hbounds⟩ := forall_mem_tileCounts
    (P := fun key => ∃ bounds, Quadkey.decode key = .ok bounds) hcut c hc
  exact ⟨_, geoOption?_of_decode hbounds c.2, rfl⟩

/-- **Facets of tiles lose no count and list every tile once, in a fixed order.** When all keys that the
    index counted can be read, the cut keys can be read as well. Then the options are the cut keys, each
    once and with the counts of all keys that are cut to it, and between them they have all counts; what
    an option tells beside is what its key says. Intervals come by their earliest year, then by their
    latest year backwards, then by key, areas by key, and the order of the counts makes no difference. -/
theorem tileFacets_tally (l : Links) (params : Params) (depth : Nat)
    (htotal : (counts.map fun f => f.count.toNat).sum < 2 ^ 64) :
    ((∀ f ∈ counts, ∃ span, Chronology.decode f.value = .ok span) →
      (∀ f ∈ counts, ∃ span, Chronology.decode (Histogram.truncate f.value depth) = .ok span) ∧
      Tallies ChronoOption.key ChronoOption.count counts depth
        (chronoFacet l params counts depth).options ∧
      (∀ o ∈ (chronoFacet l params counts depth).options, ∃ span,
        Chronology.decode o.key = .ok span ∧ o.earliestYear = span.earliestYear ∧
          o.latestYear = span.latestYear) ∧
      (chronoFacet l params counts depth).options.Pairwise (fun a b => a.rank < b.rank) ∧
      ∀ counts', counts.Perm counts' →
        chronoFacet l params counts' depth = chronoFacet l params counts depth) ∧
    ((∀ f ∈ counts, ∃ bounds, Quadkey.decode f.value = .ok bounds) →
      (∀ f ∈ counts, ∃ bounds, Quadkey.decode (Histogram.truncate f.value depth) = .ok bounds) ∧
      Tallies GeoOption.key GeoOption.count counts depth (geoFacet l params counts depth).options ∧
      (∀ o ∈ (geoFacet l params counts depth).options, Quadkey.decode o.key = .ok o.bounds) ∧
      (geoFacet l params counts depth).options.Pairwise (fun a b => a.key < b.key) ∧
      ∀ counts', counts.Perm counts' →
        geoFacet l params counts' depth = geoFacet l params counts depth) := by
  constructor
  · intro hkeys
    have hcut : ∀ f ∈ counts, ∃ span,
        Chronology.decode (Histogram.truncate f.value depth) = .ok span := by
      intro f hf
      obtain ⟨span, hspan⟩ := hkeys f hf
      exact Chronology.decode_truncate hspan depth
    have htally := tallies_of_perm htotal (perm_chronoOptions l params hcut)
    refine ⟨hcut, htally, fun o ho => ?_, ?_, fun counts' hperm => ?_⟩
    · obtain ⟨key, count, -, hoption⟩ := mem_options_iff.1 ho
      obtain ⟨rfl, rfl, span, hspan⟩ := of_chronoOption? hoption
      rw [chronoOption?_of_decode hspan] at hoption
      have hfields := Option.some.inj hoption
      exact ⟨span, hspan, congrArg ChronoOption.earliestYear hfields.symm,
        congrArg ChronoOption.latestYear hfields.symm⟩
    · refine ChronoOption.pairwise_mergeSort_before ?_
      exact ((List.mergeSort_perm _ ChronoOption.before).map _).nodup_iff.1 htally.nodup_keys
    · rw [chronoFacet, chronoFacet, tileCounts_of_perm hperm]
  · intro hkeys
    have hcut : ∀ f ∈ counts, ∃ bounds,
        Quadkey.decode (Histogram.truncate f.value depth) = .ok bounds := by
      intro f hf
      obtain ⟨bounds, hbounds⟩ := hkeys f hf
      exact Quadkey.decode_truncate hbounds depth
    have hlist := map_geoOptions l params hcut
    refine ⟨hcut, tallies_of_perm htotal (.of_eq hlist), fun o ho => ?_, ?_,
      fun counts' hperm => ?_⟩
    · obtain ⟨c, -, hoption⟩ := List.mem_filterMap.1 ho
      exact of_geoOption? hoption
    · have hsorted := Histogram.pairwise_toList_aggregate (counts.map fun f => (f.value, f.count)) depth
      rw [← tileCounts, ← hlist, List.pairwise_map] at hsorted
      exact hsorted
    · rw [geoFacet, geoFacet, tileCounts_of_perm hperm]

/-- Keys with and without a magnitude, some with white space, of which two are cut to one. -/
def mixedKeys : List FacetCount :=
  [⟨" 11100110011001100112103", 1⟩, ⟨"10m-11100 ", 2⟩, ⟨"10m-11100110011001100112103", 3⟩]

def quadkeys : List FacetCount := [⟨"0123", 2⟩, ⟨" 0130", 3⟩, ⟨"2001 ", 4⟩]

theorem tileFacets_tally_mixedKeys :
    (∀ f ∈ mixedKeys, ∃ span, Chronology.decode f.value = .ok span) ∧
    (∀ f ∈ quadkeys, ∃ bounds, Quadkey.decode f.value = .ok bounds) ∧
    (∃ o ∈ (chronoFacet ⟨"/search"⟩ {} mixedKeys 4).options, o.key = "10m-1110" ∧
      o.count.toNat = 5) ∧
    ((geoFacet ⟨"/search"⟩ {} quadkeys 2).options.map fun o => o.count.toNat).sum = 9 := by
  have hchrono : ∀ f ∈ mixedKeys, ∃ span, Chronology.decode f.value = .ok span := by
    have hread : ∀ f ∈ mixedKeys, (Chronology.decode f.value).toOption.isSome = true := by
      decide +kernel
    intro f hf
    cases hdecode : Chronology.decode f.value with
    | ok span => exact ⟨span, rfl⟩
    | error e => exact absurd (hread f hf) (by simp [hdecode, Except.toOption])
  have hgeo : ∀ f ∈ quadkeys, ∃ bounds, Quadkey.decode f.value = .ok bounds := by
    rw [quadkeys, List.forall_mem_cons, List.forall_mem_cons, List.forall_mem_singleton]
    exact ⟨⟨_, Quadkey.decode_eq_ok_iff.2 ⟨by decide +kernel, 5, 3, by decide +kernel, rfl⟩⟩,
      ⟨_, Quadkey.decode_eq_ok_iff.2 ⟨by decide +kernel, 6, 2, by decide +kernel, rfl⟩⟩,
      ⟨_, Quadkey.decode_eq_ok_iff.2 ⟨by decide +kernel, 1, 8, by decide +kernel, rfl⟩⟩⟩
  have hmixed : (mixedKeys.map fun f => f.count.toNat).sum < 2 ^ 64 := by decide
  have hquad : (quadkeys.map fun f => f.count.toNat).sum < 2 ^ 64 := by decide
  obtain ⟨-, htally, -⟩ := (tileFacets_tally ⟨"/search"⟩ {} 4 hmixed).1 hchrono
  obtain ⟨-, hgeoTally, -⟩ := (tileFacets_tally ⟨"/search"⟩ {} 2 hquad).2 hgeo
  obtain ⟨o, ho, hkey⟩ := List.mem_map.1
    ((htally.mem_keys "10m-1110").2 ⟨⟨"10m-11100 ", 2⟩, by decide, by decide +kernel⟩)
  refine ⟨hchrono, hgeo, ⟨o, ho, hkey, ?_⟩, ?_⟩
  · rw [htally.count_eq o ho, hkey]
    decide +kernel
  · rw [hgeoTally.sum_counts]
    decide

end FacetSearch

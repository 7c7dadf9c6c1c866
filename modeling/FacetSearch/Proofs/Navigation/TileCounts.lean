import FacetSearch.Navigation.TileFacet
import FacetSearch.Proofs.Request.BlankValues
import FacetSearch.Proofs.Tile.Histogram
import FacetSearch.Proofs.Tile.Keys

set_option autoImplicit false

/-! # Counts of intervals

An interval is offered with the counts of the keys that are cut to its path, and filtering on it selects
the keys that begin with the path. The two are the same, but for one kind of key: a path without a
magnitude also selects keys whose magnitude begins like it, and these are counted under paths with their
magnitude (`count_eq_selected_iff`). -/

namespace FacetSearch

open Chronology (IsPathText IsPathChar)

/-! ## Compiling a path -/

namespace Compiler

variable {c : Compiler} {path : String} {span : Chronology.Span}

/-- Values that are all tiles narrow the query and leave nothing to report. -/
theorem tiles_of_flat {space : TileSpace} {raws values paths : List String}
    (hflat : c.flat (.tile space) raws = .ok values) (hsort : sortTiles space values = (paths, []))
    (q : CompiledQuery) :
    c.tiles q space raws
      = .ok (q.requireOneOf (paths.map fun path => clauseFragment (tileClause space path))) := by
  rw [tiles, hflat]
  simp only [bind, Except.bind, hsort, List.append_nil]
  rfl

/-- **A path that is given as a value is put into the clause as it is**; the empty path narrows nothing. -/
theorem tiles_of_isPathText (hlimit : 0 < c.settings.maxAlternatives)
    (hor : ∃ d ∈ c.settings.orDelimiter.toList, ¬ IsPathChar d) (htext : IsPathText path.toList)
    (hspan : Chronology.decode path = .ok span) (q : CompiledQuery) :
    c.tiles q .chrono [path]
      = .ok (q.requireOneOf
          (if path = "" then [] else [clauseFragment (tileClause .chrono path)])) := by
  by_cases hempty : path = ""
  · have hnone : c.flat (.tile .chrono) [path] = .ok [] := by
      rw [flat, Expansion.expand_of_blank (by rw [hempty]; rfl)]
      rfl
    rw [tiles_of_flat hnone rfl, if_pos hempty, List.map_nil]
  · have hsegment : (c.settings.expansion (.tile .chrono)).IsSegment path := by
      refine ⟨fun hnil => hempty (String.toList_eq_nil_iff.1 hnil), htext.trimmed,
        fun separator hlevels => absurd hlevels (by simp [CompilerSettings.expansion,
          Parameter.separator?, Parameter.family?]), fun hpart => ?_⟩
      obtain ⟨d, hd, hno⟩ := hor
      exact hno (htext.chars d (hpart.subset hd))
    have hflat : c.flat (.tile .chrono) [path] = .ok [path] := by
      rw [flat, Expansion.expand_of_flat rfl hsegment hlimit]
      rfl
    have hlower : lowered path = path := by
      rw [lowered, List.map_congr_left htext.lower, List.map_id', String.ofList_toList]
    have hsort : sortTiles .chrono [path] = ([path], []) := by
      simp [sortTiles, tilePath, hlower, hspan, Except.map]
    rw [tiles_of_flat hflat hsort, if_neg hempty, List.map_singleton]

end Compiler

/-! ## Counts -/

/-- A prefix query for the path finds the key. -/
def Selects (path key : String) : Prop := path.toList <+: key.toList

instance (path : String) : DecidablePred (Selects path) := fun key =>
  inferInstanceAs (Decidable (path.toList <+: key.toList))

/-- The path finds the key, but has no magnitude and the key has one: the text of the path begins the
    text of the magnitude. -/
def Strays (path key : String) : Prop :=
  Selects path key ∧ '-' ∈ key.toList ∧ '-' ∉ path.toList

instance (path : String) : DecidablePred (Strays path) := fun _ =>
  inferInstanceAs (Decidable (_ ∧ _ ∧ _))

/-- The counts of the keys with a property, added up. -/
def countWhere (P : String → Prop) [DecidablePred P] (counts : List FacetCount) : Nat :=
  Histogram.countOf P (counts.map fun f => (f.value, f.count))

section Options

variable {l : Links} {params : Params} {counts : List FacetCount} {depth : Nat} {o : ChronoOption}

theorem of_chronoOption? {key : String} {count : UInt64}
    (h : chronoOption? l params key count = some o) :
    o.key = key ∧ o.count = count ∧ ∃ span, Chronology.decode key = .ok span := by
  unfold chronoOption? at h
  split at h
  · next span hspan =>
    obtain rfl := Option.some.inj h
    exact ⟨rfl, rfl, span, hspan⟩
  · exact absurd h (by simp)

/-- The options are the counted paths that can be read. -/
theorem mem_options_iff : o ∈ (chronoFacet l params counts depth).options ↔
    ∃ key count, (key, count) ∈ tileCounts counts depth ∧
      chronoOption? l params key count = some o := by
  rw [chronoFacet, List.mem_mergeSort, List.mem_filterMap, Prod.exists]

/-- **The count of an interval is the sum of the counts that its path selects, less those of keys that
    stray into the path.** Given as a value, the key of an option is the path of the clause; and its count
    is what the clause selects exactly when no key with a count has a magnitude that begins with the
    path while the path has none. -/
theorem count_eq_selected_iff {c : Compiler}
    (hkeys : ∀ f ∈ counts, ∃ e l raw, Chronology.encode e l raw = .ok f.value)
    (htotal : (counts.map fun f => f.count.toNat).sum < 2 ^ 64)
    (hlimit : 0 < c.settings.maxAlternatives)
    (hor : ∃ d ∈ c.settings.orDelimiter.toList, ¬ IsPathChar d)
    (ho : o ∈ (chronoFacet l params counts depth).options) (q : CompiledQuery) :
    c.tiles q .chrono [o.key]
        = .ok (q.requireOneOf
            (if o.key = "" then []
              else [Compiler.clauseFragment (Compiler.tileClause .chrono o.key)])) ∧
      countWhere (Selects o.key) counts = o.count.toNat + countWhere (Strays o.key) counts ∧
      (o.count.toNat = countWhere (Selects o.key) counts ↔
        ∀ f ∈ counts, Strays o.key f.value → f.count = 0) := by
  obtain ⟨key, count, hmem, hoption⟩ := mem_options_iff.1 ho
  obtain ⟨rfl, rfl, span, hspan⟩ := of_chronoOption? hoption
  have hpairs : ∀ f ∈ counts.map (fun f => (f.value, f.count)), Chronology.Key f.1.toList := by
    intro f hf
    obtain ⟨f', hf', rfl⟩ := List.mem_map.1 hf
    obtain ⟨e, l, raw, hencode⟩ := hkeys f' hf'
    exact Chronology.key_of_encode hencode
  obtain ⟨⟨f₀, hf₀, hcut⟩, hcount⟩ :=
    Histogram.mem_toList_aggregate (by simpa [Function.comp_def] using htotal) hmem
  rw [← hcut] at hspan
  -- what is selected is cut to the path or strays into it
  have hor' : ∀ f ∈ counts.map (fun f => (f.value, f.count)),
      Selects o.key f.1 ↔ Histogram.truncate f.1 depth = o.key ∨ Strays o.key f.1 := by
    intro f hf
    have hiff := Chronology.truncate_eq_iff (hpairs f hf) (hpairs f₀ hf₀) hspan
    rw [hcut] at hiff
    constructor
    · intro hselects
      by_cases hstray : '-' ∈ f.1.toList ∧ '-' ∉ o.key.toList
      · exact .inr ⟨hselects, hstray⟩
      · exact .inl (hiff.2 ⟨hselects, fun hdash => by_contra fun hno => hstray ⟨hdash, hno⟩⟩)
    · rintro (hsame | hstrays)
      · exact (hiff.1 hsame).1
      · exact hstrays.1
  have hdisjoint : ∀ f ∈ counts.map (fun f => (f.value, f.count)),
      Histogram.truncate f.1 depth = o.key → ¬ Strays o.key f.1 := by
    rintro f hf hsame ⟨-, hdash, hno⟩
    rw [← hsame, Chronology.dash_mem_truncate_iff] at hno
    exact hno hdash
  have hsum : countWhere (Selects o.key) counts
      = o.count.toNat + countWhere (Strays o.key) counts := by
    rw [hcount]
    exact Histogram.countOf_add (Q := (Histogram.truncate · depth = o.key)) hor' hdisjoint
  have htext := Chronology.isPathText_truncate (hpairs f₀ hf₀) hspan
  rw [hcut] at htext hspan
  refine ⟨Compiler.tiles_of_isPathText hlimit hor htext hspan q, hsum, ?_⟩
  have hzero : countWhere (Strays o.key) counts = 0 ↔
      ∀ f ∈ counts, Strays o.key f.value → f.count = 0 := by
    rw [countWhere, Histogram.countOf_eq_zero_iff, List.forall_mem_map]
  rw [← hzero]
  omega

end Options

/-- A period under the default bound and under the same bound by name. -/
def samePeriodTwice : List FacetCount :=
  [⟨"11100110011001100112103", 1⟩, ⟨"10m-11100110011001100112103", 2⟩]

theorem encode_samePeriodTwice :
    ∀ f ∈ samePeriodTwice, ∃ e l raw, Chronology.encode e l raw = .ok f.value := by
  rw [samePeriodTwice, List.forall_mem_cons, List.forall_mem_singleton]
  exact ⟨⟨9000000, 10, "", by decide +kernel⟩, 9000000, 10, "10m", by decide +kernel⟩

/-- Under its magnitude the period is counted as it is selected. -/
theorem count_eq_selected_iff_samePeriodTwice :
    ∃ o ∈ (chronoFacet ⟨"/search"⟩ {} samePeriodTwice 1).options, o.key = "10m-1" ∧
      o.count = 2 ∧ o.count.toNat = countWhere (Selects o.key) samePeriodTwice := by
  obtain ⟨o, ho⟩ := Option.isSome_iff_exists.1
    (by decide +kernel : (chronoOption? ⟨"/search"⟩ {} "10m-1" 2).isSome = true)
  obtain ⟨hkey, hcount, -⟩ := of_chronoOption? ho
  have hmem : o ∈ (chronoFacet ⟨"/search"⟩ {} samePeriodTwice 1).options :=
    mem_options_iff.2 ⟨_, _, by decide +kernel, ho⟩
  obtain ⟨-, -, hsame⟩ := count_eq_selected_iff (c := {}) encode_samePeriodTwice (by decide) (by decide)
    ⟨'|', by decide +kernel, by decide⟩ hmem (Compiler.start {})
  refine ⟨o, hmem, hkey, hcount, hsame.2 ?_⟩
  rw [hkey]
  decide +kernel

/-- Without one it is selected together with the period under the magnitude. -/
theorem count_ne_selected_samePeriodTwice :
    (∀ f ∈ samePeriodTwice, ∃ e l raw, Chronology.encode e l raw = .ok f.value) ∧
      ∃ o ∈ (chronoFacet ⟨"/search"⟩ {} samePeriodTwice 1).options, o.key = "1" ∧
        Compiler.tiles {} (Compiler.start {}) .chrono [o.key]
          = .ok ((Compiler.start {}).requireOneOf
              [Compiler.clauseFragment "form_use_life_chrono_tile:1*"]) ∧
        o.count = 1 ∧ countWhere (Selects o.key) samePeriodTwice = 3 := by
  obtain ⟨o, ho⟩ := Option.isSome_iff_exists.1
    (by decide +kernel : (chronoOption? ⟨"/search"⟩ {} "1" 1).isSome = true)
  obtain ⟨hkey, hcount, -⟩ := of_chronoOption? ho
  have hmem : o ∈ (chronoFacet ⟨"/search"⟩ {} samePeriodTwice 1).options :=
    mem_options_iff.2 ⟨_, _, by decide +kernel, ho⟩
  refine ⟨encode_samePeriodTwice, o, hmem, hkey, ?_, hcount, ?_⟩
  · have hflat : Compiler.flat {} (.tile .chrono) ["1"] = .ok ["1"] := by decide +kernel
    have hsort : Compiler.sortTiles .chrono ["1"] = (["1"], []) := by decide +kernel
    rw [hkey]
    exact Compiler.tiles_of_flat hflat hsort _
  · rw [hkey]
    decide +kernel

end FacetSearch

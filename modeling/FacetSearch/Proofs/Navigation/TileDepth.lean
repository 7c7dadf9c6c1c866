import FacetSearch.Navigation.TileFacet
import FacetSearch.Proofs.Request.Segments
import FacetSearch.Proofs.Tile.Aggregation

set_option autoImplicit false

/-! # How deep tiles are aggregated

The depth is counted on the values as they are given, whereas the tiles that are filtered on are their
alternatives. An alternative is part of its value, so its digits are counted with those of the value,
unless it has no magnitude and stands in front of the dash of one that has: `1110011||10m-01` counts as
two digits. `effectiveDepth_below_iff` tells when the depth is still below all tiles. -/

namespace FacetSearch

/-! ## The depth -/

theorem le_foldl_max_iff {n : Nat} {depths : List Nat} {start : Nat} :
    n ≤ depths.foldl max start ↔ n ≤ start ∨ ∃ depth ∈ depths, n ≤ depth := by
  induction depths generalizing start with
  | nil => simp
  | cons depth depths ih => simp [ih, or_assoc]

/-- What the depth comes up to: what may be, and what is asked for or one digit below some value. -/
theorem le_effectiveDepth_iff {n asked deepest : Nat} {values : List String} :
    n ≤ effectiveDepth asked values deepest ↔ n ≤ deepest ∧
      (n ≤ asked ∨ n ≤ 1 ∨ ∃ raw ∈ values, n ≤ Histogram.depth (Text.trim raw) + 1) := by
  have hbelow : n ≤ (values.map fun raw => Histogram.depth (Text.trim raw)).foldl max 0 + 1 ↔
      n ≤ 1 ∨ ∃ raw ∈ values, n ≤ Histogram.depth (Text.trim raw) + 1 := by
    rw [← Nat.sub_le_iff_le_add, le_foldl_max_iff]
    simp only [List.mem_map, exists_exists_and_eq_and, Nat.sub_le_iff_le_add, Nat.zero_add]
  simp only [effectiveDepth, le_min_iff, le_max_iff, hbelow]
  exact and_comm

/-! ## Digits of alternatives -/

/-- The text stands in front of the first dash of the value, and not behind it as well. -/
def Hides (raw part : String) : Prop :=
  ∃ cut ∈ Text.cutFirst ['-'] (Text.trim raw).toList,
    part.toList <:+: cut.1 ∧ ¬ part.toList <:+: cut.2

instance (raw part : String) : Decidable (Hides raw part) :=
  inferInstanceAs (Decidable (∃ cut ∈ Text.cutFirst ['-'] (Text.trim raw).toList, _))

/-- **The digits of a part are part of the digits, unless it is hidden by a dash.** -/
theorem digits_infix_of_not_hides {raw part : String} (h : part.toList <:+: (Text.trim raw).toList)
    (hshown : ¬ Hides raw part) : Histogram.digits part <:+: Histogram.digits (Text.trim raw) := by
  by_cases hdash : '-' ∈ (Text.trim raw).toList
  · obtain ⟨lead, rest, hraw, hlead⟩ := List.eq_append_cons_of_mem hdash
    rw [Histogram.digits_of_dash hraw hlead]
    rw [hraw] at h
    by_cases hpart : '-' ∈ part.toList
    · obtain ⟨lead', rest', hsame, hlead'⟩ := List.eq_append_cons_of_mem hpart
      rw [Histogram.digits_of_dash hsame hlead']
      exact Text.infix_of_append_cons_infix hlead (hsame ▸ h)
    · rw [Histogram.digits_of_absent hpart]
      rcases Text.infix_of_infix_append_cons hpart h with hfront | hbehind
      · by_contra hno
        refine hshown ⟨(lead, rest), ?_, hfront, hno⟩
        rw [hraw]
        exact Text.cutFirst_append_cons hlead rest
      · exact hbehind
  · have hpart : '-' ∉ part.toList := fun hmem => hdash (h.subset hmem)
    rwa [Histogram.digits_of_absent hdash, Histogram.digits_of_absent hpart]

theorem length_digits_le_depth {raw part : String} (h : part.toList <:+: (Text.trim raw).toList)
    (hshown : ¬ Hides raw part) :
    (Histogram.digits part).length ≤ Histogram.depth (Text.trim raw) := by
  rw [Histogram.depth_eq]
  exact (digits_infix_of_not_hides h hshown).length_le.trans (Utf8.length_le_utf8ByteSize _)

namespace Compiler

theorem digits_lowered (text : String) :
    Histogram.digits (lowered text) = (Histogram.digits text).map Char.toLower := by
  have hlowered : (lowered text).toList = text.toList.map Char.toLower := String.toList_ofList
  by_cases hdash : '-' ∈ text.toList
  · obtain ⟨lead, rest, htext, hlead⟩ := List.eq_append_cons_of_mem hdash
    rw [Histogram.digits_of_dash htext hlead]
    refine Histogram.digits_of_dash ?_ (mt Text.dash_mem_map_toLower_iff.1 hlead)
    rw [hlowered, htext, List.map_append, List.map_cons]
    rfl
  · rw [Histogram.digits_of_absent hdash, Histogram.digits_of_absent, hlowered]
    rwa [hlowered, Text.dash_mem_map_toLower_iff]

/-- The path of a tile has as many digits as the value that names it. -/
theorem length_digits_tilePath {space : TileSpace} {value path : String}
    (h : tilePath space value = .ok path) :
    (Histogram.digits path).length = (Histogram.digits value).length := by
  cases space with
  | geo =>
      simp only [tilePath] at h
      obtain ⟨bounds, -, rfl⟩ := Except.map_eq_ok h
      rfl
  | chrono =>
      simp only [tilePath] at h
      obtain ⟨span, -, rfl⟩ := Except.map_eq_ok h
      rw [digits_lowered, List.length_map]

theorem exists_infix_of_mem_flat {c : Compiler} {space : TileSpace} {values alternatives : List String}
    {value : String} (h : c.flat (.tile space) values = .ok alternatives) (hmem : value ∈ alternatives) :
    ∃ raw ∈ values, value.toList <:+: (Text.trim raw).toList := by
  obtain ⟨paths, hpaths, rfl⟩ := Except.map_eq_ok h
  obtain ⟨path, hpath, hname⟩ := List.mem_flatten.1 hmem
  exact Expansion.exists_infix_of_mem_path rfl hpaths hpath hname

end Compiler

/-- **The depth is below the tiles that are filtered on, unless a dash hides one.** Whatever the values,
    what is asked for and how deep tiles may be, the depth is not deeper than that and not less than what
    is asked for. It is one digit below an alternative that is a tile too, as far as tiles may be deep;
    only where a value hides the alternative, what is asked for or another value has to see to it. -/
theorem effectiveDepth_below_iff (c : Compiler) (space : TileSpace) (values : List String)
    (asked deepest : Nat) :
    effectiveDepth asked values deepest ≤ deepest ∧
    min deepest asked ≤ effectiveDepth asked values deepest ∧
    ∀ alternatives, c.flat (.tile space) values = .ok alternatives →
      ∀ value ∈ alternatives, ∀ path, Compiler.tilePath space value = .ok path →
        (min deepest ((Histogram.digits path).length + 1) ≤ effectiveDepth asked values deepest ↔
          ((∃ raw ∈ values, Hides raw value) →
            min deepest ((Histogram.digits path).length + 1) ≤ asked ∨
            ∃ raw ∈ values, min deepest ((Histogram.digits path).length + 1)
              ≤ Histogram.depth (Text.trim raw) + 1)) := by
  refine ⟨(le_effectiveDepth_iff.1 (Nat.le_refl _)).1,
    le_effectiveDepth_iff.2 ⟨Nat.min_le_left .., .inl (Nat.min_le_right ..)⟩, ?_⟩
  intro alternatives h value hmem path hpath
  rw [le_effectiveDepth_iff, and_iff_right (Nat.min_le_left ..)]
  constructor
  · rintro (hasked | hone | hdepth) ⟨raw, hraw, -⟩
    · exact .inl hasked
    · exact .inr ⟨raw, hraw, hone.trans (Nat.le_add_left ..)⟩
    · exact .inr hdepth
  · intro hhidden
    obtain ⟨raw, hraw, hpart⟩ := Compiler.exists_infix_of_mem_flat h hmem
    by_cases hhides : Hides raw value
    · exact (hhidden ⟨raw, hraw, hhides⟩).imp_right .inr
    · refine .inr (.inr ⟨raw, hraw, (Nat.min_le_right ..).trans (Nat.add_le_add_right ?_ 1)⟩)
      rw [Compiler.length_digits_tilePath hpath]
      exact length_digits_le_depth hpart hhides

/-- Behind a dash a tile counts, and with it the text in front of it. -/
theorem effectiveDepth_below_iff_behind :
    Compiler.flat {} (.tile .chrono) ["10m-01||1110011", " 0123 "]
      = .ok ["10m-01", "1110011", "0123"] ∧
    8 ≤ effectiveDepth 1 ["10m-01||1110011", " 0123 "] 32 := by
  have hflat : Compiler.flat {} (.tile .chrono) ["10m-01||1110011", " 0123 "]
      = .ok ["10m-01", "1110011", "0123"] := by decide +kernel
  have hpath : Compiler.tilePath .chrono "1110011" = .ok "1110011" := by decide +kernel
  have hshown : ¬ ∃ raw ∈ ["10m-01||1110011", " 0123 "], Hides raw "1110011" := by decide +kernel
  have hdigits : (Histogram.digits "1110011").length = 7 := by decide +kernel
  obtain ⟨-, -, hbelow⟩ :=
    effectiveDepth_below_iff {} .chrono ["10m-01||1110011", " 0123 "] 1 32
  have hiff := hbelow _ hflat "1110011" (by simp) "1110011" hpath
  rw [hdigits] at hiff
  exact ⟨hflat, hiff.2 fun hhidden => absurd hhidden hshown⟩

/-- In front of a dash it does not: keys are cut to three digits, although the tile has seven. -/
theorem effectiveDepth_above_hidden :
    Compiler.flat {} (.tile .chrono) ["1110011||10m-01"] = .ok ["1110011", "10m-01"] ∧
    Compiler.tilePath .chrono "1110011" = .ok "1110011" ∧
    (Histogram.digits "1110011").length = 7 ∧
    effectiveDepth 1 ["1110011||10m-01"] 32 = 3 := by
  refine ⟨?_, ?_, ?_, ?_⟩ <;> decide +kernel

end FacetSearch

import FacetSearch.Proofs.Tile.Containment

set_option autoImplicit false

/-! # Intervals of calendar years

Years count toward the present and before-present values away from it, so turning one into the other
swaps the ends of an interval. The difference is taken in 64 bits. For years near the lower end of that
range it does not fit; it then wraps around to a value far below zero (`ofYear_eq_or`), which no bound
allows. So every interval that is written is the one that was meant (`encodeYears_exact`). -/

namespace FacetSearch.Chronology

variable {raw : String} {bound year : Int}

/-! ## Distances from the present -/

/-- The distance of a year from the present is exact, or wrapped to a value below zero, and then the
    year lies before everything that a bound reaches. -/
theorem ofYear_eq_or (h : Decimal.fitsInt64 year = true) :
    ofYear year = 1950 - year ∨ ofYear year < 0 ∧ year < 1950 - maxBound := by
  simp only [Decimal.fitsInt64, Bool.and_eq_true, decide_eq_true_eq] at h
  show wrap64 (1950 - year) = 1950 - year ∨ wrap64 (1950 - year) < 0 ∧ year < 1950 - maxBound
  have hsize : UInt64.size = 0x10000000000000000 := rfl
  have hmax : maxBound = 1000000000000000 := rfl
  rw [wrap64, hsize]
  by_cases hfits : 1950 - year < 0x8000000000000000
  · left
    exact Int.bmod_eq_of_le_mul_two (by omega) (by omega)
  · right
    rw [Int.bmod_def]
    split <;> omega

/-- A bound reaches a year exactly when it reaches back to it from the present. -/
theorem ofYear_within_iff (h : Decimal.fitsInt64 year = true) (hbound : bound ≤ maxBound) :
    0 ≤ ofYear year ∧ ofYear year ≤ bound ↔ 1950 - bound ≤ year ∧ year ≤ 1950 := by
  rcases ofYear_eq_or h with hexact | hwrapped
  · rw [hexact]
    omega
  · omega

/-- The distance of a year that a bound reaches is not wrapped. -/
theorem ofYear_of_within (h : Decimal.fitsInt64 year = true) (hlow : 0 ≤ ofYear year) :
    ofYear year = 1950 - year := by
  rcases ofYear_eq_or h with hexact | hwrapped
  · exact hexact
  · omega

/-! ## Written and read again -/

/-- An interval within the bound is written as a path that is read as a span of the same bound; for a
    bound below `2 ^ 32` it is the span of the interval itself. -/
theorem exists_span_of_within (h : NamesBound raw bound) {x y : Int} (hlow : 0 ≤ min x y)
    (hhigh : max x y ≤ bound) :
    ∃ path span, encode x y raw = .ok path ∧ decode path = .ok span ∧ span.bound = bound ∧
      (bound < 2 ^ 32 → span.earliest = max x y ∧ span.latest = min x y) := by
  have hin : (Box.square bound).Holds (max x y) (min x y) :=
    square_holds hlow min_le_max hhigh
  obtain ⟨b, hreplay, hholds, hend⟩ := Box.replay_digitsToward maxDigits hin
  have hread := (decode_pathOf_iff h Box.isDigit_digitsToward).2
    ⟨Box.length_digitsToward_le _ _ _ _, b, hreplay, rfl⟩
  have hwritten := encode_eq h x y
  rw [if_neg (by omega)] at hwritten
  refine ⟨_, b.span bound, hwritten, hread, rfl, ?_⟩
  intro hsmall
  have hzero : bound / 2 ^ maxDigits = 0 := Int.ediv_eq_zero_of_lt (by omega) hsmall
  obtain ⟨hearly, hlate⟩ := span_sub_le bound hholds
  obtain ⟨hearly', hlate'⟩ := width_le_of_settled_or (by omega) hreplay hend
  omega

/-- **Intervals of years are written exactly, or refused.** For every prefix that names a bound and every
    pair of 64-bit years: a path is written exactly when the bound reaches both years from the present,
    and otherwise the interval is refused as out of range, at the ends of the 64 bits too. A path that is
    written is the one of the exact distances, and it is read as a span of the same bound; for bounds
    below `2 ^ 32` the span runs from the smaller year to the larger one. -/
theorem encodeYears_exact (h : NamesBound raw bound) {x y : Int} (hx : Decimal.fitsInt64 x = true)
    (hy : Decimal.fitsInt64 y = true) :
    ((∃ path, encodeYears x y raw = .ok path) ↔
      (1950 - bound ≤ x ∧ x ≤ 1950) ∧ 1950 - bound ≤ y ∧ y ≤ 1950) ∧
    ((∃ what, encodeYears x y raw = .error (.outOfRange what)) ↔
      ¬ ((1950 - bound ≤ x ∧ x ≤ 1950) ∧ 1950 - bound ≤ y ∧ y ≤ 1950)) ∧
    ∀ path, encodeYears x y raw = .ok path →
      encode (1950 - x) (1950 - y) raw = .ok path ∧
      ∃ span, decode path = .ok span ∧ span.bound = bound ∧
        (bound < 2 ^ 32 → span.earliestYear = min x y ∧ span.latestYear = max x y) := by
  obtain ⟨-, hmax⟩ := boundFor_range h.bound_eq
  have hwithin : ((1950 - bound ≤ x ∧ x ≤ 1950) ∧ 1950 - bound ≤ y ∧ y ≤ 1950) ↔
      ¬ (min (ofYear x) (ofYear y) < 0 ∨ bound < max (ofYear x) (ofYear y)) := by
    rw [← ofYear_within_iff hx hmax, ← ofYear_within_iff hy hmax]
    omega
  have hcourse := encode_eq h (ofYear x) (ofYear y)
  rw [← encodeYears] at hcourse
  rw [hwithin]
  by_cases hout : min (ofYear x) (ofYear y) < 0 ∨ bound < max (ofYear x) (ofYear y)
  · rw [if_pos hout] at hcourse
    rw [not_not, iff_false_right (not_not.2 hout), iff_true_right hout]
    refine ⟨?_, ⟨_, hcourse⟩, ?_⟩
    · rintro ⟨path, hpath⟩
      exact absurd (hcourse.symm.trans hpath) (by simp)
    · intro path hpath
      exact absurd (hcourse.symm.trans hpath) (by simp)
  · rw [if_neg hout] at hcourse
    rw [not_not, iff_true_right hout, iff_false_right hout]
    refine ⟨⟨_, hcourse⟩, ?_, ?_⟩
    · rintro ⟨what, hwhat⟩
      exact absurd (hcourse.symm.trans hwhat) (by simp)
    · intro path hpath
      have hxe := ofYear_of_within hx (by omega)
      have hye := ofYear_of_within hy (by omega)
      obtain ⟨path', span, hwritten, hread, hbound, hsmall⟩ :=
        exists_span_of_within h (x := ofYear x) (y := ofYear y) (by omega) (by omega)
      obtain rfl := Except.ok.inj (hpath.symm.trans hwritten)
      rw [hxe, hye] at hwritten
      refine ⟨hwritten, span, hread, hbound, ?_⟩
      intro hless
      obtain ⟨hearly, hlate⟩ := hsmall hless
      show 1950 - span.earliest = min x y ∧ 1950 - span.latest = max x y
      omega

/-- Five thousand years reach back to the year -3050 from the present, and a year at the lower end of
    the 64 bits is refused whatever stands beside it. -/
theorem encodeYears_exact_fiveThousand :
    NamesBound "5K-" 5000 ∧ Decimal.fitsInt64 (-0x8000000000000000) = true ∧
      (∃ path span, encodeYears 1950 (-3050) "5K-" = .ok path ∧ decode path = .ok span ∧
        span.earliestYear = -3050 ∧ span.latestYear = 1950) ∧
      ∃ what, encodeYears (-0x8000000000000000) 1000 "5K-" = .error (.outOfRange what) := by
  have hnames : NamesBound "5K-" 5000 := ⟨by decide +kernel, by decide +kernel⟩
  have hend : Decimal.fitsInt64 (-0x8000000000000000) = true := by decide
  obtain ⟨hwritten, -, hread⟩ :=
    encodeYears_exact hnames (x := 1950) (y := -3050) (by decide) (by decide)
  obtain ⟨path, hpath⟩ := hwritten.2 (by decide)
  obtain ⟨-, span, hspan, -, hyears⟩ := hread path hpath
  obtain ⟨hearly, hlate⟩ := hyears (by decide)
  obtain ⟨-, hrefused, -⟩ := encodeYears_exact hnames (y := 1000) hend (by decide)
  exact ⟨hnames, hend, ⟨path, span, hpath, hspan, hearly, hlate⟩, hrefused.2 (by decide)⟩

end FacetSearch.Chronology

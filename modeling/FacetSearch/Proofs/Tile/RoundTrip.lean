import FacetSearch.Proofs.Tile.Paths

set_option autoImplicit false

/-! # Intervals that are written and read again

Writing an interval and reading its path gives the interval back, in order, or else a wider one: a path
has no more digits than `maxDigits`, and each digit halves what the box holds beside the interval. For
bounds below `2 ^ 32` nothing is left over (`decode_encode_interval`). -/

namespace FacetSearch.Chronology

/-- The values of a box beside those of a point in it. -/
theorem span_sub_le (bound : Int) {b : Box} {e l : Int} (h : b.Holds e l) :
    (0 ≤ (b.span bound).earliest - e ∧ (b.span bound).earliest - e ≤ b.early.width - 1) ∧
      0 ≤ l - (b.span bound).latest ∧ l - (b.span bound).latest ≤ b.late.width - 1 := by
  simp only [Box.Holds, Axis.Holds] at h
  simp only [Box.span, Axis.width]
  omega

/-- The box at the end of a point's digits is no wider than as many halvings make it as there may be
    digits. -/
theorem width_le_of_settled_or {b : Box} {bound : Int} {digits : List Char} (hbound : 0 ≤ bound)
    (hreplay : (Box.square bound).replay digits = .ok b)
    (hend : b.settled = true ∨ digits.length = maxDigits) :
    b.early.width - 1 ≤ bound / 2 ^ maxDigits ∧ b.late.width - 1 ≤ bound / 2 ^ maxDigits := by
  rcases hend with hsettled | hlength
  · obtain ⟨hearly, hlate⟩ := Box.settled_iff.1 hsettled
    have hnonneg : 0 ≤ bound / 2 ^ maxDigits := Int.ediv_nonneg hbound (by positivity)
    exact ⟨by omega, by omega⟩
  · have hwidth := Box.width_replay_le hreplay
    rw [hlength] at hwidth
    simpa [Box.square, Axis.width] using hwidth

/-- The whole part of a quotient in terms of the next whole number. -/
theorem ceil_sub_one_eq_ediv (bound : Int) :
    ⌈((bound : ℚ) + 1) / 2 ^ 32⌉ - 1 = bound / 2 ^ maxDigits := by
  have hceil := Rat.ceil_intCast_div_natCast (bound + 1) (2 ^ 32)
  have hcast : ((bound : ℚ) + 1) / 2 ^ 32 = ((bound + 1 : ℤ) : ℚ) / ((2 ^ 32 : ℕ) : ℚ) := by
    push_cast
    rfl
  rw [hcast, hceil, maxDigits]
  push_cast
  omega

/-- **An interval that is written and read again comes back, up to the precision of a path.** It is
    refused exactly when it reaches beyond the bound or below zero. Otherwise its path has at most 32
    digits and is read with the same bound, as a span around the interval that is less than one part in
    `2 ^ 32` of the square too wide on either side; so it is the interval itself for every bound below
    `2 ^ 32`. -/
theorem decode_encode_interval {raw : String} {bound : Int} (h : NamesBound raw bound) (x y : Int) :
    (1 ≤ bound ∧ bound ≤ 1000000000000000) ∧
    ((∃ what, encode x y raw = .error (.outOfRange what)) ↔ min x y < 0 ∨ bound < max x y) ∧
    (¬ (min x y < 0 ∨ bound < max x y) → ∃ path digits span,
      encode x y raw = .ok path ∧
      split path = .ok (bound, digits) ∧ digits.length ≤ 32 ∧
      decode path = .ok span ∧ span.bound = bound ∧
      (0 ≤ span.earliest - max x y ∧
        span.earliest - max x y ≤ ⌈((bound : ℚ) + 1) / 2 ^ 32⌉ - 1) ∧
      (0 ≤ min x y - span.latest ∧
        min x y - span.latest ≤ ⌈((bound : ℚ) + 1) / 2 ^ 32⌉ - 1) ∧
      (bound < 2 ^ 32 → span.earliest = max x y ∧ span.latest = min x y)) := by
  have hrange := boundFor_range h.bound_eq
  refine ⟨hrange, ?_, ?_⟩
  · rw [encode_eq h]
    constructor
    · rintro ⟨what, hwhat⟩
      by_contra hin
      rw [if_neg hin] at hwhat
      exact absurd hwhat (by simp)
    · intro hout
      exact ⟨_, if_pos hout⟩
  · intro hin
    have hsquare : (Box.square bound).Holds (max x y) (min x y) := by
      rw [Box.holds_square_iff]
      omega
    obtain ⟨b, hreplay, hholds, hend⟩ := Box.replay_digitsToward maxDigits hsquare
    have hdigits : ∀ c ∈ (Box.square bound).digitsToward (max x y) (min x y) maxDigits, IsDigit c :=
      Box.isDigit_digitsToward
    have hshort := Box.length_digitsToward_le (max x y) (min x y) maxDigits (Box.square bound)
    obtain ⟨hearly, hlate⟩ := span_sub_le bound hholds
    obtain ⟨hearly', hlate'⟩ := width_le_of_settled_or (by omega) hreplay hend
    have hceil := ceil_sub_one_eq_ediv bound
    refine ⟨_, _, b.span bound, by rw [encode_eq h, if_neg hin], split_pathOf h hdigits, ?_,
      (decode_pathOf_iff h hdigits).2 ⟨hshort, b, hreplay, rfl⟩, rfl, ⟨hearly.1, ?_⟩,
      ⟨hlate.1, ?_⟩, ?_⟩
    · rw [← String.length_toList, String.toList_ofList]
      exact hshort
    · omega
    · omega
    · intro hsmall
      -- below `2 ^ 32` the quotient is zero
      have hzero : bound / 2 ^ maxDigits = 0 := Int.ediv_eq_zero_of_lt (by omega) hsmall
      omega

/-- A million million years are too many for 32 digits. -/
theorem decode_encode_interval_thousandG :
    NamesBound " 1000G--" 1000000000000 ∧
      ∃ path span, encode 7 999999999999 " 1000G--" = .ok path ∧ decode path = .ok span ∧
        span.bound = 1000000000000 ∧ span.earliest - 999999999999 ≤ 232 := by
  have hnames : NamesBound " 1000G--" 1000000000000 := ⟨by decide +kernel, by decide +kernel⟩
  obtain ⟨-, -, hread⟩ := decode_encode_interval hnames 7 999999999999
  obtain ⟨path, digits, span, hpath, -, -, hspan, hbound, hearly, -, -⟩ := hread (by decide)
  have hceil := ceil_sub_one_eq_ediv 1000000000000
  rw [maxDigits] at hceil
  refine ⟨hnames, path, span, hpath, hspan, hbound, ?_⟩
  simp only [Int.max_def] at hearly
  omega

end FacetSearch.Chronology

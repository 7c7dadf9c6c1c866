import FacetSearch.Proofs.Tile.RoundTrip

set_option autoImplicit false

/-! # Prefixes are boxes

What a prefix query and a histogram of cut paths rest on: the paths that begin with given digits are
those of the intervals inside the box that the digits lead to (`prefix_iff_holds`). So a cut path covers
its interval, and it covers more the shorter it is cut. -/

namespace FacetSearch.Chronology

/-- The digits of an interval under a bound. -/
def intervalDigits (bound earliest latest : Int) : List Char :=
  (Box.square bound).digitsToward earliest latest maxDigits

variable {raw : String} {bound e l : Int} {digits : List Char}

theorem encode_eq_pathOf (h : NamesBound raw bound) (hl : 0 ≤ l) (hle : l ≤ e) (he : e ≤ bound) :
    encode e l raw = .ok (pathOf (bareMagnitude raw) (intervalDigits bound e l)) := by
  rw [encode_eq h, max_eq_left hle, min_eq_right hle, if_neg (by omega), intervalDigits]

theorem square_holds (hl : 0 ≤ l) (hle : l ≤ e) (he : e ≤ bound) : (Box.square bound).Holds e l := by
  rw [Box.holds_square_iff]
  omega

/-! ## Cut digits -/

theorem replay_of_prefix {b b' : Box} {front : List Char} (hbegins : front <+: digits)
    (h : b.replay digits = .ok b') :
    ∃ middle, b.replay front = .ok middle ∧
      ∀ {x y : Int}, b'.Holds x y → middle.Holds x y := by
  obtain ⟨back, rfl⟩ := hbegins
  obtain ⟨middle, hfront, hback⟩ := Box.replay_append.1 h
  exact ⟨middle, hfront, fun hin => hin.of_replay hback⟩

/-- Digits with more digits behind them lead to a box that says more. -/
theorem span_anti {b middle b' : Box} {front : List Char} (hb : b.inhabited = true)
    (hbegins : front <+: digits) (hfront : b.replay front = .ok middle)
    (hreplay : b.replay digits = .ok b') :
    (b'.span bound).earliest ≤ (middle.span bound).earliest ∧
      (middle.span bound).latest ≤ (b'.span bound).latest := by
  -- the point of the span's own ends lies in the smaller box, hence in the larger one
  obtain ⟨hearly, hlate⟩ := Box.inhabited_iff.1 (Box.inhabited_of_replay hb hreplay)
  have hends : b'.Holds (b'.early.hi - 1) b'.late.lo := by
    simp only [Box.Holds, Axis.Holds]
    simp only [Axis.width] at hearly hlate
    omega
  obtain ⟨middle', hmiddle', hholds⟩ := replay_of_prefix hbegins hreplay
  obtain rfl := Except.ok.inj (hfront.symm.trans hmiddle')
  obtain ⟨hx, hy⟩ := span_sub_le bound (hholds hends)
  simp only [Box.span] at hx hy ⊢
  omega

/-- The first digits of an interval lead to a box around it. -/
theorem replay_take_intervalDigits (h : (Box.square bound).Holds e l) (depth : Nat) :
    ∃ b, (Box.square bound).replay ((intervalDigits bound e l).take depth) = .ok b ∧
      b.Holds e l := by
  obtain ⟨b, hreplay, hin, -⟩ := Box.replay_digitsToward maxDigits h
  obtain ⟨middle, hfront, hholds⟩ := replay_of_prefix (List.take_prefix depth _) hreplay
  exact ⟨middle, hfront, hholds hin⟩

/-- Intervals share their first digits exactly when one box of as many digits is around both. -/
theorem take_eq_iff_box {e' l' : Int} {depth : Nat} (h : (Box.square bound).Holds e l)
    (h' : (Box.square bound).Holds e' l') (hd : depth ≤ (intervalDigits bound e l).length)
    (hd' : depth ≤ (intervalDigits bound e' l').length) :
    (intervalDigits bound e l).take depth = (intervalDigits bound e' l').take depth ↔
      ∃ (text : List Char) (b : Box), text.length = depth ∧
        (Box.square bound).replay text = .ok b ∧ b.Holds e l ∧ b.Holds e' l' := by
  constructor
  · intro hsame
    obtain ⟨b, hreplay, hin⟩ := replay_take_intervalDigits h depth
    obtain ⟨b', hreplay', hin'⟩ := replay_take_intervalDigits h' depth
    obtain rfl := Except.ok.inj (hreplay.symm.trans (hsame ▸ hreplay'))
    exact ⟨_, b, List.length_take_of_le hd, hreplay, hin, hin'⟩
  · rintro ⟨text, b, rfl, hreplay, hin, hin'⟩
    have hbegins := (Box.prefix_digitsToward_iff h hreplay hd).2 hin
    have hbegins' := (Box.prefix_digitsToward_iff h' hreplay hd').2 hin'
    rw [intervalDigits, intervalDigits, ← List.prefix_iff_eq_take.1 hbegins,
      ← List.prefix_iff_eq_take.1 hbegins']

/-! ## Cut paths -/

/-- **The paths that begin with given digits are those of the intervals in their box.** Hence every path
    can be cut to any number of digits, and then covers its interval with a span that only shrinks as the
    digits become more; the beginning of digits that are read is read as well; and two intervals share
    their first digits exactly when one box of as many digits is around both. -/
theorem prefix_iff_holds (h : NamesBound raw bound) :
    (∀ e l, 0 ≤ l → l ≤ e → e ≤ bound →
      let path := pathOf (bareMagnitude raw) (intervalDigits bound e l)
      encode e l raw = .ok path ∧
      split path = .ok (bound, String.ofList (intervalDigits bound e l)) ∧
      (∀ text span, (∀ c ∈ text, IsDigit c) →
        decode (pathOf (bareMagnitude raw) text) = .ok span →
        text.length ≤ (intervalDigits bound e l).length →
        ∃ b, (Box.square bound).replay text = .ok b ∧ span = b.span bound ∧
          (text <+: intervalDigits bound e l ↔
            (b.early.lo ≤ e ∧ e < b.early.hi) ∧ b.late.lo ≤ l ∧ l < b.late.hi)) ∧
      (∀ depth, ∃ span, decode (Histogram.truncate path depth) = .ok span ∧
        e ≤ span.earliest ∧ span.latest ≤ l) ∧
      ∀ depth depth' span span', depth ≤ depth' →
        decode (Histogram.truncate path depth) = .ok span →
        decode (Histogram.truncate path depth') = .ok span' →
        span'.earliest ≤ span.earliest ∧ span.latest ≤ span'.latest) ∧
    (∀ text span front, (∀ c ∈ text, IsDigit c) →
      decode (pathOf (bareMagnitude raw) text) = .ok span → front <+: text →
      ∃ span', decode (pathOf (bareMagnitude raw) front) = .ok span') ∧
    ∀ e l e' l' depth, 0 ≤ l → l ≤ e → e ≤ bound → 0 ≤ l' → l' ≤ e' → e' ≤ bound →
      depth ≤ (intervalDigits bound e l).length → depth ≤ (intervalDigits bound e' l').length →
      ((intervalDigits bound e l).take depth = (intervalDigits bound e' l').take depth ↔
        ∃ (text : List Char) (b : Box), text.length = depth ∧
          (Box.square bound).replay text = .ok b ∧ b.Holds e l ∧ b.Holds e' l') := by
  refine ⟨fun e l hl hle he => ?_, fun text span front hd hspan hbegins => ?_,
    fun e l e' l' depth hl hle he hl' hle' he' hdepth hdepth' =>
      take_eq_iff_box (square_holds hl hle he) (square_holds hl' hle' he') hdepth hdepth'⟩
  · have hin := square_holds hl hle he
    have hdigits : ∀ c ∈ intervalDigits bound e l, IsDigit c := Box.isDigit_digitsToward
    have htake : ∀ depth, ∀ c ∈ (intervalDigits bound e l).take depth, IsDigit c :=
      fun depth c hc => hdigits c (List.mem_of_mem_take hc)
    have hshort : ∀ depth, ((intervalDigits bound e l).take depth).length ≤ maxDigits :=
      fun depth => (List.length_take_le' _ _).trans (Box.length_digitsToward_le e l maxDigits _)
    refine ⟨encode_eq_pathOf h hl hle he, split_pathOf h hdigits,
      fun text span hd hspan hlength => ?_, fun depth => ?_,
      fun depth depth' span span' hle' hspan hspan' => ?_⟩
    · obtain ⟨-, b, hreplay, rfl⟩ := (decode_pathOf_iff h hd).1 hspan
      exact ⟨b, hreplay, rfl, Box.prefix_digitsToward_iff hin hreplay hlength⟩
    · obtain ⟨b, hreplay, hholds⟩ := replay_take_intervalDigits hin depth
      obtain ⟨hx, hy⟩ := span_sub_le bound hholds
      rw [truncate_pathOf h hdigits]
      exact ⟨b.span bound, (decode_pathOf_iff h (htake depth)).2 ⟨hshort depth, b, hreplay, rfl⟩,
        by omega, by omega⟩
    · rw [truncate_pathOf h hdigits] at hspan hspan'
      obtain ⟨-, b, hreplay, rfl⟩ := (decode_pathOf_iff h (htake depth)).1 hspan
      obtain ⟨-, b', hreplay', rfl⟩ := (decode_pathOf_iff h (htake depth')).1 hspan'
      exact span_anti hin.inhabited (List.take_prefix_take_left hle') hreplay hreplay'
  · obtain ⟨hlength, b, hreplay, -⟩ := (decode_pathOf_iff h hd).1 hspan
    obtain ⟨middle, hfront, -⟩ := replay_of_prefix hbegins hreplay
    exact ⟨middle.span bound, (decode_pathOf_iff h fun c hc => hd c (hbegins.subset hc)).2
      ⟨hbegins.length_le.trans hlength, middle, hfront, rfl⟩⟩

/-- Two intervals of the same centuries lie in one box of 14 digits. -/
theorem prefix_iff_holds_centuries :
    NamesBound "" 10000000 ∧ ∃ (text : List Char) (b : Box), text.length = 14 ∧
      (Box.square 10000000).replay text = .ok b ∧ b.Holds 5200 5000 ∧ b.Holds 5150 5050 := by
  have hnames : NamesBound "" 10000000 := ⟨by decide +kernel, by decide +kernel⟩
  obtain ⟨-, -, hshare⟩ := prefix_iff_holds hnames
  refine ⟨hnames, (hshare 5200 5000 5150 5050 14 (by decide) (by decide) (by decide) (by decide)
    (by decide) (by decide) (by decide +kernel) (by decide +kernel)).1 ?_⟩
  decide +kernel

end FacetSearch.Chronology

import FacetSearch.Proofs.Number.Decimal
import FacetSearch.Proofs.Tile.Containment

set_option autoImplicit false

/-! # Prefixes and the first dash

When a path is written, the dashes at the end of its prefix are dropped and one is put back; when it is
read, it is cut at its first dash. A dash inside the prefix is then taken for the one behind it. The only
place for such a dash is a negative exponent, as in `1e-1g` (`dash_mem_iff`). The paths under every other
prefix are cut where they were put together, and those under such a prefix are refused, because the
letter of the exponent is no unit (`split_encode_iff`). -/

namespace FacetSearch.Chronology

variable {raw : String} {bound : Int} {front back : List Char}

/-! ## Dashes in magnitudes -/

/-- In front of the first dash of a magnitude stands the letter of an exponent. -/
theorem letter_of_dash (h : magnitude raw = .ok bound) (hraw : raw.toList = front ++ '-' :: back)
    (hfront : '-' ∉ front) (hhead : ∀ c ∈ front.head?, Text.isBlank c = false) :
    (front.map Char.toLower).getLast? = some 'e' := by
  obtain ⟨factor, x, hfactor, hx, hbound, hpos, -⟩ := magnitude_eq_ok_iff.1 h
  rw [Text.toList_toLower_trim, hraw, Text.trimChars_append_cons (by decide) hhead, List.map_append,
    List.map_cons] at hfactor hx
  have hdash : '-' ∉ front.map Char.toLower := by rwa [Text.dash_mem_map_toLower_iff]
  -- the number runs from the front over the dash up to the unit
  have hne : (back.rdropWhile Text.isBlank).map Char.toLower ≠ [] := by
    intro hnil
    rw [hnil] at hfactor
    exact absurd hfactor (by simp [unitFactor?])
  rw [List.dropLast_append_of_ne_nil (by simp), List.dropLast_cons_of_ne_nil hne] at hx
  have hnumeral := Decimal.isNumeral_of_binary64? hx
  rw [String.toList_ofList] at hnumeral
  rcases hnumeral.front_of_dash rfl hdash with hnil | ⟨letter, hletter, rfl | rfl⟩
  · -- a dash at the front makes the bound negative
    rw [hnil, List.nil_append] at hx
    have hnegative := Decimal.isNegative_of_binary64? (String.toList_ofList ..) hx
    have hle := (hnegative.mul_ofNat factor).round.truncate?_le hbound
    omega
  · exact hletter
  · obtain ⟨c, -, hc⟩ := List.mem_map.1 (List.mem_of_mem_getLast? hletter)
    have hlower := Char.toLower_toLower_eq_toLower c
    rw [hc] at hlower
    exact absurd hlower (by decide)

/-- **What stands in front of a magnitude's own dash has no unit.** -/
theorem magnitude_front_of_dash (h : magnitude raw = .ok bound)
    (hraw : raw.toList = front ++ '-' :: back) (hfront : '-' ∉ front)
    (hhead : ∀ c ∈ front.head?, Text.isBlank c = false) :
    magnitude (String.ofList front)
      = .error (.unrecognizedMagnitude (String.ofList front) .noUnit) := by
  have hletter := letter_of_dash h hraw hfront hhead
  have htrimmed : Text.Trimmed front := by
    refine ⟨hhead, fun c hc => ?_⟩
    rw [List.getLast?_map, hc, Option.map_some, Option.some.injEq] at hletter
    rw [← Text.isBlank_toLower, hletter]
    decide
  have hunit : (Text.trim (String.ofList front)).toLower.toList.getLast?.bind unitFactor? = none := by
    rw [Text.toList_toLower_trim, String.toList_ofList, Text.trimChars_eq_self_iff.2 htrimmed, hletter]
    rfl
  simp only [magnitude, hunit]

/-- The number of the magnitude has an exponent with a dash in front of it. -/
def HasNegativeExponent (bare : String) : Prop := ['e', '-'] <:+: bare.toLower.toList

instance : DecidablePred HasNegativeExponent :=
  fun bare => inferInstanceAs (Decidable (_ <:+: bare.toLower.toList))

/-- A prefix with a dash is not empty, so it is a magnitude. -/
theorem magnitude_of_boundFor_of_dash {bare : String} (h : boundFor bare = .ok bound)
    (hdash : '-' ∈ bare.toList) : bare.isEmpty = false ∧ magnitude bare = .ok bound := by
  have hne : bare.isEmpty = false := by
    rw [Bool.eq_false_iff, ne_eq, String.isEmpty_iff, ← String.toList_eq_nil_iff]
    exact List.ne_nil_of_mem hdash
  rw [boundFor, hne, if_neg Bool.false_ne_true] at h
  exact ⟨hne, h⟩

/-- **The dashes of a prefix that names a bound are those of negative exponents.** -/
theorem dash_mem_iff (h : boundFor (bareMagnitude raw) = .ok bound) :
    '-' ∈ (bareMagnitude raw).toList ↔ HasNegativeExponent (bareMagnitude raw) := by
  rw [HasNegativeExponent, Text.toList_toLower]
  constructor
  · intro hdash
    obtain ⟨front, back, hbare, hfront⟩ := List.eq_append_cons_of_mem hdash
    obtain ⟨-, hmagnitude⟩ := magnitude_of_boundFor_of_dash h hdash
    have hhead : ∀ c ∈ front.head?, Text.isBlank c = false := fun c hc =>
      head_bareMagnitude raw c (Text.mem_head?_of_prefix (hbare ▸ List.prefix_append _ _) hc)
    obtain ⟨number, hnumber⟩ :=
      List.getLast?_eq_some_iff.1 (letter_of_dash hmagnitude hbare hfront hhead)
    refine ⟨number, back.map Char.toLower, ?_⟩
    rw [hbare, List.map_append, hnumber, List.map_cons]
    simp
  · intro hexponent
    rw [← Text.dash_mem_map_toLower_iff]
    exact hexponent.subset (by simp)

/-! ## Paths under their own prefix -/

theorem namesBound_iff (h : boundFor (bareMagnitude raw) = .ok bound) :
    NamesBound raw bound ↔ ¬ HasNegativeExponent (bareMagnitude raw) := by
  rw [← dash_mem_iff h]
  exact ⟨NamesBound.no_dash, NamesBound.mk h⟩

/-- A path under a prefix with a negative exponent is cut too early. -/
theorem split_pathOf_of_negativeExponent {digits : List Char}
    (h : boundFor (bareMagnitude raw) = .ok bound)
    (hexponent : HasNegativeExponent (bareMagnitude raw)) (hd : ∀ c ∈ digits, IsDigit c) :
    ∃ lead, lead.toList ++ ['-'] <+: (bareMagnitude raw).toLower.toList ∧
      split (pathOf (bareMagnitude raw) digits)
        = .error (.unrecognizedMagnitude lead .noUnit) := by
  obtain ⟨hne, hmagnitude⟩ := magnitude_of_boundFor_of_dash h ((dash_mem_iff h).2 hexponent)
  have hdash : '-' ∈ (bareMagnitude raw).toLower.toList := hexponent.subset (by simp)
  obtain ⟨front, back, hbare, hfront⟩ := List.eq_append_cons_of_mem hdash
  have hhead : ∀ c ∈ front.head?, Text.isBlank c = false := fun c hc =>
    head_toLower_bareMagnitude raw c
      (Text.mem_head?_of_prefix (hbare ▸ List.prefix_append _ _) hc)
  refine ⟨String.ofList front, ?_, ?_⟩
  · rw [hbare, String.toList_ofList]
    exact ⟨back, by simp⟩
  · rw [split, trim_pathOf raw hd, pathOf, hne, if_neg Bool.false_ne_true, hbare, List.append_assoc,
      List.append_assoc, List.cons_append, splitFirst_of_dash hfront]
    simp only [magnitude_front_of_dash (magnitude_toLower hmagnitude) hbare hfront hhead]
    rfl

/-- **A path is read under its own prefix exactly when the prefix has no negative exponent.** For every
    prefix that names a bound and every interval within it, the path is the digits, behind the bare prefix
    in lower case and a dash unless the prefix is blank. It is cut into that bound and those digits and
    can be read, unless the prefix has a negative exponent; then the text up to the dash of the exponent
    is refused as a magnitude. -/
theorem split_encode_iff (h : boundFor (bareMagnitude raw) = .ok bound) {earliest latest : Int}
    (hlow : 0 ≤ min earliest latest) (hhigh : max earliest latest ≤ bound) :
    ∃ path digits, encode earliest latest raw = .ok path ∧
      digits = intervalDigits bound (max earliest latest) (min earliest latest) ∧
      path = pathOf (bareMagnitude raw) digits ∧
      (split path = .ok (bound, String.ofList digits) ↔
        ¬ HasNegativeExponent (bareMagnitude raw)) ∧
      ((∃ span, decode path = .ok span) ↔ ¬ HasNegativeExponent (bareMagnitude raw)) ∧
      (HasNegativeExponent (bareMagnitude raw) → ∃ lead,
        lead.toList ++ ['-'] <+: (bareMagnitude raw).toLower.toList ∧
        split path = .error (.unrecognizedMagnitude lead .noUnit) ∧
        decode path = .error (.unrecognizedMagnitude lead .noUnit)) := by
  have hsquare : (Box.square bound).Holds (max earliest latest) (min earliest latest) := by
    rw [Box.holds_square_iff]
    omega
  have hencode := encode_eq_of_boundFor h earliest latest
  rw [if_neg (by omega), ← intervalDigits] at hencode
  have hd : ∀ c ∈ intervalDigits bound (max earliest latest) (min earliest latest), IsDigit c :=
    Box.isDigit_digitsToward
  have hshort : (intervalDigits bound (max earliest latest) (min earliest latest)).length ≤ maxDigits :=
    Box.length_digitsToward_le _ _ _ _
  obtain ⟨b, hreplay, -, -⟩ := Box.replay_digitsToward maxDigits hsquare
  rw [← intervalDigits] at hreplay
  generalize intervalDigits bound (max earliest latest) (min earliest latest) = digits at *
  refine ⟨_, digits, hencode, rfl, rfl, ?_⟩
  by_cases hexponent : HasNegativeExponent (bareMagnitude raw)
  · obtain ⟨lead, hlead, hsplit⟩ := split_pathOf_of_negativeExponent h hexponent hd
    have hdecode : decode (pathOf (bareMagnitude raw) digits)
        = .error (.unrecognizedMagnitude lead .noUnit) := by
      rw [decode, hsplit]
      rfl
    refine ⟨iff_of_false ?_ (not_not_intro hexponent), iff_of_false ?_ (not_not_intro hexponent),
      fun _ => ⟨lead, hlead, hsplit, hdecode⟩⟩
    · simp [hsplit]
    · simp [hdecode]
  · have hnames := (namesBound_iff h).2 hexponent
    exact ⟨iff_of_true (split_pathOf hnames hd) hexponent,
      iff_of_true ⟨_, (decode_pathOf_iff hnames hd).2 ⟨hshort, b, hreplay, rfl⟩⟩ hexponent,
      fun hno => absurd hno hexponent⟩

/-- An exponent without a dash, white space behind the unit and dashes behind that. -/
theorem split_encode_iff_blankUnit :
    boundFor (bareMagnitude " 2.5e0K --") = .ok 2500 ∧
      ∃ path, encode 1000 2000 " 2.5e0K --" = .ok path ∧
        split path = .ok (2500, "132013203113") ∧ ∃ span, decode path = .ok span := by
  have hbound : boundFor (bareMagnitude " 2.5e0K --") = .ok 2500 := by decide +kernel
  have hplain : ¬ HasNegativeExponent (bareMagnitude " 2.5e0K --") := by decide +kernel
  have hdigits : String.ofList (intervalDigits 2500 (max 1000 2000) (min 1000 2000))
      = "132013203113" := by decide +kernel
  have hlow : (0 : Int) ≤ min 1000 2000 := by decide
  have hhigh : max 1000 2000 ≤ (2500 : Int) := by decide
  obtain ⟨path, digits, hencode, rfl, -, hsplit, hdecode, -⟩ :=
    split_encode_iff hbound hlow hhigh
  rw [hdigits] at hsplit
  exact ⟨hbound, path, hencode, hsplit.2 hplain, hdecode.2 hplain⟩

/-- A tenth of a thousand years. -/
theorem split_encode_tenthOfK :
    encode 60 40 "1e-1k" = .ok "1e-1k-1221312" ∧
      split "1e-1k-1221312" = .error (.unrecognizedMagnitude "1e" .noUnit) ∧
      decode "1e-1k-1221312" = .error (.unrecognizedMagnitude "1e" .noUnit) := by
  refine ⟨?_, ?_, ?_⟩ <;> decide +kernel

end FacetSearch.Chronology

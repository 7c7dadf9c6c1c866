import FacetSearch.Proofs.Text.Trimming
import FacetSearch.Proofs.Text.Utf8
import FacetSearch.Proofs.Tile.Boxes
import FacetSearch.Tile.Histogram

set_option autoImplicit false

/-! # Paths as texts

A path is read back into the bound and the digits that it was written from (`split_pathOf`), and cutting
it to fewer digits is cutting its digits (`truncate_pathOf`), as long as its magnitude has no dash of its
own: `1e-1g` names a bound, but a path that begins with it is cut at the wrong dash. Writing puts the
magnitude in lower case, which names the same bound. -/

namespace FacetSearch.Chronology

/-! ## Magnitudes -/

/-- What a magnitude names a bound by: its unit, its number and the whole years of their product. -/
theorem magnitude_eq_ok_iff {raw : String} {bound : Int} :
    magnitude raw = .ok bound ↔
      ∃ factor x, (Text.trim raw).toLower.toList.getLast?.bind unitFactor? = some factor ∧
        Decimal.binary64? (String.ofList (Text.trim raw).toLower.toList.dropLast) = some x ∧
        (x * Binary64.ofNat factor).round.truncate? = some bound ∧ 1 ≤ bound ∧ bound ≤ maxBound := by
  constructor
  · intro h
    simp only [magnitude] at h
    split at h
    · exact absurd h (by simp)
    · next factor hfactor =>
      split at h
      · exact absurd h (by simp)
      · next x hx =>
        split at h
        · exact absurd h (by simp)
        · next found hfound =>
          split at h
          · next hrange =>
            obtain rfl := Except.ok.inj h
            exact ⟨factor, x, hfactor, hx, hfound, hrange⟩
          · exact absurd h (by simp)
  · rintro ⟨factor, x, hfactor, hx, hfound, hrange⟩
    simp only [magnitude, hfactor, hx, hfound, hrange, and_self, if_true]

theorem magnitude_toLower {raw : String} {bound : Int} (h : magnitude raw = .ok bound) :
    magnitude raw.toLower = .ok bound := by
  rw [magnitude_eq_ok_iff] at h ⊢
  rwa [Text.trim_toLower, Text.toLower_toLower]

/-- A bound is a whole number of years from 1 to the largest one. -/
theorem boundFor_range {bare : String} {bound : Int} (h : boundFor bare = .ok bound) :
    1 ≤ bound ∧ bound ≤ maxBound := by
  unfold boundFor at h
  split at h
  · obtain rfl := Except.ok.inj h
    decide
  · obtain ⟨-, -, -, -, -, hrange⟩ := magnitude_eq_ok_iff.1 h
    exact hrange

theorem toList_bareMagnitude (raw : String) :
    (bareMagnitude raw).toList = (Text.trim raw).toList.rdropWhile (· = '-') := by
  rw [bareMagnitude, String.toList_ofList]
  rfl

theorem head_bareMagnitude (raw : String) :
    ∀ c ∈ (bareMagnitude raw).toList.head?, Text.isBlank c = false := by
  intro c hc
  rw [toList_bareMagnitude, Text.trim, String.toList_ofList] at hc
  exact (Text.trimmed_trimChars raw.toList).head c
    (Text.mem_head?_of_prefix (List.rdropWhile_prefix _ _) hc)

theorem head_toLower_bareMagnitude (raw : String) :
    ∀ c ∈ (bareMagnitude raw).toLower.toList.head?, Text.isBlank c = false := by
  intro c hc
  rw [Text.toList_toLower, List.head?_map] at hc
  obtain ⟨c', hc', rfl⟩ := Option.map_eq_some_iff.1 hc
  rw [Text.isBlank_toLower]
  exact head_bareMagnitude raw c' hc'

/-- The prefix is blank or names the bound, and has dashes at its end only. -/
structure NamesBound (raw : String) (bound : Int) : Prop where
  bound_eq : boundFor (bareMagnitude raw) = .ok bound
  no_dash : '-' ∉ (bareMagnitude raw).toList

/-! ## Digits as texts -/

variable {digits : List Char}

theorem IsDigit.not_blank {c : Char} (h : IsDigit c) : Text.isBlank c = false := by
  rw [isDigit_iff] at h
  fin_cases h <;> rfl

theorem IsDigit.ne_dash {c : Char} (h : IsDigit c) : c ≠ '-' := by
  rintro rfl
  exact absurd h (by decide)

theorem utf8ByteSize_digits (h : ∀ c ∈ digits, IsDigit c) :
    (String.ofList digits).utf8ByteSize = digits.length := by
  refine Utf8.utf8ByteSize_ascii fun c hc => ?_
  have hdigit := isDigit_iff.1 (h c hc)
  fin_cases hdigit <;> decide

theorem trimmed_digits (h : ∀ c ∈ digits, IsDigit c) : Text.Trimmed digits :=
  ⟨fun c hc => (h c (List.mem_of_mem_head? hc)).not_blank,
    fun c hc => (h c (List.mem_of_mem_getLast? hc)).not_blank⟩

/-! ## Cutting at the dash -/

theorem splitFirst_of_absent {text : List Char} (h : '-' ∉ text) :
    Text.splitFirst "-" (String.ofList text) = none := by
  have hcut : Text.cutFirst ['-'] text = none := by
    rwa [Text.cutFirst_eq_none_iff, List.singleton_infix_iff]
  rw [Text.splitFirst, String.toList_ofList, String.toList_ofList, hcut, Option.map_none]

theorem splitFirst_of_dash {lead : List Char} (h : '-' ∉ lead) (rest : List Char) :
    Text.splitFirst "-" (String.ofList (lead ++ '-' :: rest))
      = some (String.ofList lead, String.ofList rest) := by
  rw [Text.splitFirst, String.toList_ofList, String.toList_ofList, Text.cutFirst_append_cons h rest,
    Option.map_some]

/-! ## Writing and reading -/

/-- The path of some digits under a bare magnitude. -/
def pathOf (bare : String) (digits : List Char) : String :=
  String.ofList ((if bare.isEmpty then [] else bare.toLower.toList ++ ['-']) ++ digits)

variable {raw : String} {bound : Int}

theorem splitFirst_pathOf_of_empty {bare : String} (hbare : bare.isEmpty = true)
    (hd : ∀ c ∈ digits, IsDigit c) : Text.splitFirst "-" (pathOf bare digits) = none := by
  rw [pathOf, if_pos hbare, List.nil_append]
  exact splitFirst_of_absent fun hdash => (hd _ hdash).ne_dash rfl

theorem splitFirst_pathOf {bare : String} (hbare : bare.isEmpty = false)
    (hdash : '-' ∉ bare.toList) (digits : List Char) :
    Text.splitFirst "-" (pathOf bare digits) = some (bare.toLower, String.ofList digits) := by
  have hlower : '-' ∉ bare.toLower.toList := by
    rwa [Text.toList_toLower, Text.dash_mem_map_toLower_iff]
  rw [pathOf, if_neg (by simp [hbare]), List.append_assoc, List.singleton_append,
    splitFirst_of_dash hlower, String.ofList_toList]

theorem trim_pathOf (raw : String) (hd : ∀ c ∈ digits, IsDigit c) :
    Text.trim (pathOf (bareMagnitude raw) digits) = pathOf (bareMagnitude raw) digits := by
  rw [Text.trim, Text.trimChars_eq_self_iff.2, String.ofList_toList]
  rw [pathOf, String.toList_ofList]
  by_cases hbare : (bareMagnitude raw).isEmpty = true
  · rw [if_pos hbare]
    exact trimmed_digits hd
  · rw [if_neg hbare, List.append_assoc]
    have hne : (bareMagnitude raw).toLower.toList ≠ [] := by
      rwa [Text.toList_toLower, ne_eq, List.map_eq_nil_iff, String.toList_eq_nil_iff,
        ← String.isEmpty_iff]
    constructor
    · intro c hc
      rw [List.head?_append_of_ne_nil _ hne] at hc
      exact head_toLower_bareMagnitude raw c hc
    · intro c hc
      rw [List.getLast?_append_of_ne_nil _ (by simp), List.singleton_append] at hc
      rcases List.mem_cons.1 (List.mem_of_mem_getLast? hc) with rfl | hc
      · decide
      · exact (hd c hc).not_blank

/-- **A path is read back into its bound and its digits.** -/
theorem split_pathOf (h : NamesBound raw bound) (hd : ∀ c ∈ digits, IsDigit c) :
    split (pathOf (bareMagnitude raw) digits) = .ok (bound, String.ofList digits) := by
  unfold split
  rw [trim_pathOf raw hd]
  have hbound := h.bound_eq
  unfold boundFor at hbound
  by_cases hbare : (bareMagnitude raw).isEmpty = true
  · rw [if_pos hbare] at hbound
    obtain rfl := Except.ok.inj hbound
    simp only [splitFirst_pathOf_of_empty hbare hd]
    rw [pathOf, if_pos hbare, List.nil_append]
  · rw [if_neg hbare] at hbound
    simp only [splitFirst_pathOf (Bool.eq_false_iff.2 hbare) h.no_dash, magnitude_toLower hbound]
    rfl

theorem truncate_pathOf (h : NamesBound raw bound) (hd : ∀ c ∈ digits, IsDigit c) (depth : Nat) :
    Histogram.truncate (pathOf (bareMagnitude raw) digits) depth
      = pathOf (bareMagnitude raw) (digits.take depth) := by
  unfold Histogram.truncate
  by_cases hbare : (bareMagnitude raw).isEmpty = true
  · simp only [splitFirst_pathOf_of_empty hbare hd]
    simp only [pathOf, if_pos hbare, List.nil_append, String.toList_ofList]
  · simp only [splitFirst_pathOf (Bool.eq_false_iff.2 hbare) h.no_dash]
    rw [← String.toList_inj]
    simp [pathOf, hbare]

/-- What a path says whose digits lead to a box. -/
def Box.span (b : Box) (bound : Int) : Span where
  earliest := b.early.hi - 1
  latest := b.late.lo
  bound

theorem decode_pathOf_iff (h : NamesBound raw bound) (hd : ∀ c ∈ digits, IsDigit c) {span : Span} :
    decode (pathOf (bareMagnitude raw) digits) = .ok span ↔
      digits.length ≤ maxDigits ∧
        ∃ b, (Box.square bound).replay digits = .ok b ∧ span = b.span bound := by
  unfold decode
  rw [split_pathOf h hd]
  simp only [bind, Except.bind, pure, Except.pure, utf8ByteSize_digits hd, String.toList_ofList]
  by_cases hlong : maxDigits < digits.length
  · rw [if_pos hlong]
    constructor
    · intro habsurd
      exact absurd habsurd (by simp [throw, throwThe, MonadExceptOf.throw])
    · rintro ⟨hle, -⟩
      omega
  · rw [if_neg hlong, and_iff_right (by omega)]
    cases (Box.square bound).replay digits with
    | error why => simp [throw, throwThe, MonadExceptOf.throw]
    | ok b => simp [Box.span, eq_comm]

/-- What writing an interval comes to under a prefix that names a bound. -/
theorem encode_eq_of_boundFor (h : boundFor (bareMagnitude raw) = .ok bound) (earliest latest : Int) :
    encode earliest latest raw
      = if min earliest latest < 0 ∨ bound < max earliest latest then
          .error (.outOfRange (.interval (max earliest latest) (min earliest latest) bound))
        else .ok (pathOf (bareMagnitude raw)
          ((Box.square bound).digitsToward (max earliest latest) (min earliest latest) maxDigits)) := by
  unfold encode
  simp only [h, bind, Except.bind]
  split <;> rfl

theorem encode_eq (h : NamesBound raw bound) (earliest latest : Int) :
    encode earliest latest raw
      = if min earliest latest < 0 ∨ bound < max earliest latest then
          .error (.outOfRange (.interval (max earliest latest) (min earliest latest) bound))
        else .ok (pathOf (bareMagnitude raw)
          ((Box.square bound).digitsToward (max earliest latest) (min earliest latest) maxDigits)) :=
  encode_eq_of_boundFor h.bound_eq earliest latest

end FacetSearch.Chronology

import FacetSearch.Proofs.Calendar.Days
import FacetSearch.Proofs.Number.Decimal
import FacetSearch.Proofs.Number.Digits

set_option autoImplicit false

/-! # Instants as texts

The fields of a date and of a time of day have a fixed number of digits, so a field is read from its own
digits only (`readNumber_eq_some_iff`) and a plain date from its own text only
(`plainDate?_eq_some_iff`). A timestamp in universal time gives back the instant that it was written
from (`instant?_of_timestamp`). The larger fields come first and none is shorter than another, so
timestamps are in the order of their instants (`timestamp_lt_iff`). -/

namespace FacetSearch.Calendar

open Decimal (isDigit value)

variable {size n : Nat} {text rest : List Char} {d : Date} {year day instant : Int}

/-! ## Numbers of a fixed number of digits -/

theorem length_padded (hsize : 0 < size) (h : n < 10 ^ size) : (padded size n).length = size := by
  have hle := (Nat.length_toDigits_le_iff (by decide) hsize).2 h
  rw [padded, List.length_append, List.length_replicate]
  omega

theorem isDigit_of_mem_padded {c : Char} (h : c ∈ padded size n) : isDigit c = true := by
  rcases List.mem_append.1 h with hzero | hdigit
  · rw [List.eq_of_mem_replicate hzero]
    decide
  · rw [Decimal.isDigit_eq]
    exact Nat.isDigit_of_mem_toDigits (by decide) (by decide) hdigit

theorem value_padded (size n : Nat) : value (padded size n) = n := by
  have hzeros : ∀ k, value (List.replicate k '0') = 0 := by
    intro k
    induction k with
    | zero => rfl
    | succ k ih =>
        rw [List.replicate_succ, Decimal.value_cons, ih, show Decimal.digit '0' = 0 from rfl,
          Nat.zero_mul]
  have hdigits : value (Nat.toDigits 10 n) = n := by
    rw [value, Decimal.foldl_eq_ofDigitChars, Nat.ofDigitChars_ten_toDigits]
    exact fun c => Nat.isDigit_of_mem_toDigits (by decide) (by decide)
  rw [padded, Decimal.value_append, hzeros, hdigits, Nat.zero_mul, Nat.zero_add]

/-- **A number is read from its digits, and from no others.** -/
theorem readNumber_eq_some_iff (hsize : 0 < size) :
    readNumber size text = some (n, rest) ↔ n < 10 ^ size ∧ text = padded size n ++ rest := by
  unfold readNumber
  dsimp only
  constructor
  · intro h
    split at h
    · next hcond =>
      rw [Bool.and_eq_true, decide_eq_true_eq, List.all_eq_true] at hcond
      obtain ⟨hlength, hdigits⟩ := hcond
      obtain ⟨hn, hrest⟩ := Prod.mk.inj (Option.some.inj h)
      have hlt := Decimal.value_lt hdigits
      rw [hlength, hn] at hlt
      refine ⟨hlt, ?_⟩
      rw [← hrest]
      conv_lhs => rw [← List.take_append_drop size text]
      congr 1
      exact Decimal.eq_of_value_eq hdigits (fun c => isDigit_of_mem_padded)
        (by rw [hlength, length_padded hsize hlt]) (by rw [hn, value_padded])
    · exact absurd h (by simp)
  · rintro ⟨hlt, rfl⟩
    have hlength := length_padded hsize hlt
    have hall : (padded size n).all isDigit = true :=
      List.all_eq_true.2 fun c => isDigit_of_mem_padded
    rw [List.take_left' hlength, List.drop_left' hlength, hlength, hall, value_padded]
    simp

theorem readChar_eq_some_iff {c : Char} : readChar c text = some rest ↔ text = c :: rest := by
  cases text with
  | nil => simp [readChar]
  | cons d text =>
      rw [readChar]
      split <;> simp_all

/-! ## Plain dates -/

/-- The digits and dashes of a date. -/
def dateText (d : Date) : List Char :=
  padded 4 d.year.toNat ++ '-' :: padded 2 d.month ++ '-' :: padded 2 d.day

theorem readMonthDay_eq_some_iff :
    readMonthDay year text = some (d, rest) ↔ d.isValid = true ∧ d.year = year ∧
      text = '-' :: (padded 2 d.month ++ '-' :: (padded 2 d.day ++ rest)) := by
  simp only [readMonthDay, bind, Option.bind_eq_some_iff, Prod.exists, readChar_eq_some_iff,
    readNumber_eq_some_iff (show 0 < 2 by decide)]
  constructor
  · rintro ⟨_, rfl, month, _, ⟨-, rfl⟩, _, rfl, day, _, ⟨-, rfl⟩, h⟩
    split at h
    · next hvalid =>
      obtain ⟨rfl, rfl⟩ := Prod.mk.inj (Option.some.inj h)
      exact ⟨hvalid, rfl, rfl⟩
    · exact absurd h (by simp)
  · rintro ⟨hvalid, rfl, rfl⟩
    have hmonth := (month_of_isValid hvalid).2
    have hday := day_le_of_isValid hvalid
    refine ⟨_, rfl, d.month, _, ⟨by omega, rfl⟩, _, rfl, d.day, _, ⟨by omega, rfl⟩, ?_⟩
    rw [if_pos hvalid]

theorem leadingSign_of_digit (h : ∀ c ∈ text.head?, isDigit c = true) :
    Decimal.leadingSign text = (none, text) := by
  unfold Decimal.leadingSign
  split
  · exact absurd (h '+' rfl) (by decide)
  · exact absurd (h '-' rfl) (by decide)
  · rfl

/-- **A plain date without a sign is read from its own text only.** -/
theorem plainDate?_eq_some_iff (h : Decimal.leadingSign text = (none, text)) :
    plainDate? text = some d ↔
      d.isValid = true ∧ 0 ≤ d.year ∧ d.year ≤ 9999 ∧ text = dateText d := by
  simp only [plainDate?, h, reduceCtorEq, if_false, bind, Option.bind_eq_some_iff, Prod.exists,
    readNumber_eq_some_iff (show 0 < 4 by decide), readMonthDay_eq_some_iff]
  constructor
  · rintro ⟨year, _, ⟨hyear, rfl⟩, d', rest, ⟨hvalid, hsame, rfl⟩, hend⟩
    split at hend
    · next hempty =>
      obtain rfl := Option.some.inj hend
      obtain rfl := List.isEmpty_iff.1 hempty
      refine ⟨hvalid, by omega, by omega, ?_⟩
      simp [dateText, hsame]
    · exact absurd hend (by simp)
  · rintro ⟨hvalid, hlow, hhigh, rfl⟩
    refine ⟨d.year.toNat, _, ⟨by omega, ?_⟩, d, [], ⟨hvalid, by omega, rfl⟩, rfl⟩
    simp [dateText]

/-! ## Instants -/

/-- The instant lies in one of the years that a timestamp can name. -/
def Writable (instant : Int) : Prop :=
  0 ≤ (instantDate instant).year ∧ (instantDate instant).year ≤ 9999

instance : DecidablePred Writable := fun _ => inferInstanceAs (Decidable (_ ∧ _))

theorem le_yearOf_iff : year ≤ yearOf day ↔ firstDay year ≤ day := by
  obtain ⟨hlow, hhigh⟩ := yearOf_within day
  constructor
  · intro hle
    exact (strictMono_firstDay.monotone hle).trans hlow
  · intro hle
    exact Int.lt_add_one_iff.1 (strictMono_firstDay.lt_iff_lt.1 (hle.trans_lt hhigh))

/-- The instants of the years from 0 to 9999 run from the first moment of the one to the last of the
    other. -/
theorem writable_iff : Writable instant ↔ -62167219200 ≤ instant ∧ instant < 253402300800 := by
  have hlow : 0 ≤ yearOf (instant / daySeconds + epochDay) ↔ 0 ≤ instant / daySeconds + epochDay :=
    le_yearOf_iff
  have hhigh : 9999 + 1 ≤ yearOf (instant / daySeconds + epochDay)
      ↔ 3652425 ≤ instant / daySeconds + epochDay := le_yearOf_iff
  show 0 ≤ yearOf (instant / daySeconds + epochDay) ∧
    yearOf (instant / daySeconds + epochDay) ≤ 9999 ↔ _
  simp only [daySeconds, epochDay] at *
  omega

theorem secondOfDay_within (instant : Int) :
    0 ≤ secondOfDay instant ∧ secondOfDay instant < daySeconds :=
  ⟨Int.emod_nonneg _ (by decide), Int.emod_lt_of_pos _ (by decide)⟩

theorem isValid_instantDate (instant : Int) : (instantDate instant).isValid = true :=
  isValid_dateOf _

/-- An instant is a second of its date. -/
theorem instantDate_at (instant : Int) :
    (instantDate instant).at (secondOfDay instant) = instant := by
  rw [Date.at, instantDate, dayNumber_dateOf, Int.add_sub_cancel, secondOfDay]
  exact Int.ediv_mul_add_emod instant daySeconds

theorem instantDate_of_at (h : d.isValid = true) {second : Int} (hlow : 0 ≤ second)
    (hhigh : second < daySeconds) : instantDate (d.at second) = d := by
  have hday : d.at second / daySeconds = d.dayNumber - epochDay := by
    rw [Date.at, Int.add_comm, Int.add_mul_ediv_right _ _ (by decide),
      Int.ediv_eq_zero_of_lt hlow hhigh, Int.zero_add]
  rw [instantDate, hday, Int.sub_add_cancel, dateOf_dayNumber h]

theorem secondOfDay_at (d : Date) {second : Int} (hlow : 0 ≤ second) (hhigh : second < daySeconds) :
    secondOfDay (d.at second) = second := by
  rw [secondOfDay, Date.at, Int.add_comm, Int.add_mul_emod_self_right, Int.emod_eq_of_lt hlow hhigh]

/-! ## Timestamps -/

/-- The digits and colons of a second of the day. -/
def clockText (second : Nat) : List Char :=
  padded 2 (second / 3600) ++ ':' :: padded 2 (second / 60 % 60) ++ ':' :: padded 2 (second % 60)

/-- The text of a second of a date in universal time. -/
def timestampText (d : Date) (second : Nat) : List Char :=
  dateText d ++ 'T' :: (clockText second ++ ['Z'])

/-- **An instant of the years from 0 to 9999 is written as its second of its date.** -/
theorem timestamp_eq_some_iff {written : String} :
    timestamp instant = some written ↔ Writable instant ∧
      written = String.ofList (timestampText (instantDate instant) (secondOfDay instant).toNat) := by
  have htext : timestamp instant = if Writable instant then
      some (String.ofList (timestampText (instantDate instant) (secondOfDay instant).toNat))
      else none := by
    simp only [timestamp, Writable, timestampText, dateText, clockText, List.append_assoc,
      List.cons_append]
  rw [htext]
  by_cases h : Writable instant
  · rw [if_pos h, and_iff_right h, Option.some_inj, eq_comm]
  · simp [h]

/-- **The text of a second of a date is read as that second.** -/
theorem timestamp?_timestampText (h : d.isValid = true) (hlow : 0 ≤ d.year) (hhigh : d.year ≤ 9999)
    {second : Nat} (hsecond : second < 86400) :
    timestamp? (timestampText d second) = some (d.at second) := by
  simp only [timestamp?, bind, Option.bind_eq_some_iff, Prod.exists,
    readNumber_eq_some_iff (show 0 < 4 by decide), readMonthDay_eq_some_iff]
  refine ⟨d.year.toNat, _, ⟨by omega, ?_⟩, d, 'T' :: (clockText second ++ ['Z']),
    ⟨h, by omega, rfl⟩, ?_⟩
  · simp [timestampText, dateText]
  -- behind the date, the letter parts it from the clock
  dsimp only
  rw [if_pos (by decide), Option.bind_some]
  simp only [Option.bind_eq_some_iff, Prod.exists, readChar_eq_some_iff,
    readNumber_eq_some_iff (show 0 < 2 by decide)]
  refine ⟨second / 3600, _, ⟨by omega, ?_⟩, _, rfl, second / 60 % 60, _, ⟨by omega, rfl⟩,
    padded 2 (second % 60) ++ ['Z'], rfl, second % 60, ['Z'], ⟨by omega, rfl⟩, ['Z'], rfl, 0, [], rfl,
    ?_⟩
  · simp [clockText]
  · have hkept : min (second % 60) 59 = second % 60 := by omega
    have hclock : ((second / 3600 : Nat) : Int) * 3600 + (second / 60 % 60 : Nat) * 60
        + (second % 60 : Nat) = second := by omega
    rw [if_pos ⟨by omega, by omega, by omega, rfl⟩, if_neg (by omega), hkept, Int.sub_zero, hclock]

theorem isDigit_head_dateText (d : Date) (rest : List Char) :
    ∀ c ∈ (dateText d ++ rest).head?, isDigit c = true := by
  intro c hc
  refine (isDigit_of_mem_padded : c ∈ padded 4 d.year.toNat → _) ?_
  have hne : padded 4 d.year.toNat ≠ [] := List.append_ne_nil_of_right_ne_nil _ Nat.toDigits_ne_nil
  rw [dateText, List.append_assoc, List.append_assoc, List.head?_append_of_ne_nil _ hne] at hc
  exact List.mem_of_mem_head? hc

theorem leadingSign_dateText (d : Date) (rest : List Char) :
    Decimal.leadingSign (dateText d ++ rest) = (none, dateText d ++ rest) :=
  leadingSign_of_digit (isDigit_head_dateText d rest)

theorem length_dateText (h : d.isValid = true) (hlow : 0 ≤ d.year) (hhigh : d.year ≤ 9999) :
    (dateText d).length = 10 := by
  have hmonth := (month_of_isValid h).2
  have hday := day_le_of_isValid h
  simp only [dateText, List.length_append, List.length_cons]
  rw [length_padded (by decide) (by omega), length_padded (by decide) (by omega),
    length_padded (by decide) (by omega)]

theorem instant?_timestampText (h : d.isValid = true) (hlow : 0 ≤ d.year) (hhigh : d.year ≤ 9999)
    {second : Nat} (hsecond : second < 86400) :
    instant? (timestampText d second) = some (d.at second) := by
  have hplain : plainDate? (timestampText d second) = none := by
    rw [Option.eq_none_iff_forall_ne_some]
    intro d' hd'
    obtain ⟨hvalid', hlow', hhigh', htext⟩ :=
      (plainDate?_eq_some_iff (leadingSign_dateText d _)).1 hd'
    -- the text runs on behind its date
    have hlength := congrArg List.length htext
    rw [length_dateText hvalid' hlow' hhigh', List.length_append, List.length_cons,
      length_dateText h hlow hhigh] at hlength
    omega
  rw [instant?, hplain]
  exact timestamp?_timestampText h hlow hhigh hsecond

/-- **A written instant is read back.** -/
theorem instant?_of_timestamp {written : String} (h : timestamp instant = some written) :
    instant? written.toList = some instant := by
  obtain ⟨hwritable, rfl⟩ := timestamp_eq_some_iff.1 h
  obtain ⟨hlow, hhigh⟩ := secondOfDay_within instant
  rw [daySeconds] at hhigh
  have hsecond : (secondOfDay instant).toNat < 86400 := by omega
  have hread := instant?_timestampText (isValid_instantDate instant) hwritable.1 hwritable.2 hsecond
  rw [Int.toNat_of_nonneg hlow, instantDate_at] at hread
  rwa [String.toList_ofList]

/-- **A plain date is its midnight.** -/
theorem timestamp_of_plainDate? (h : Decimal.leadingSign text = (none, text))
    (hplain : plainDate? text = some d) :
    timestamp (d.at 0) = some (String.ofList text ++ "T00:00:00Z") := by
  obtain ⟨hvalid, hlow, hhigh, rfl⟩ := (plainDate?_eq_some_iff h).1 hplain
  have hdate := instantDate_of_at hvalid (le_refl 0) (by decide)
  have hwritable : Writable (d.at 0) := by
    rw [Writable, hdate]
    exact ⟨hlow, hhigh⟩
  have hclock : 'T' :: (clockText (0 : Int).toNat ++ ['Z']) = "T00:00:00Z".toList := by decide
  rw [timestamp_eq_some_iff, hdate, secondOfDay_at d (le_refl 0) (by decide), and_iff_right hwritable,
    timestampText, hclock, String.ofList_append, String.ofList_toList]

/-! ## Order -/

theorem append_lt_append_iff {front front' back back' : List Char}
    (h : front.length = front'.length) :
    front ++ back < front' ++ back' ↔ front < front' ∨ front = front' ∧ back < back' := by
  induction front generalizing front' with
  | nil =>
      obtain rfl := List.length_eq_zero_iff.1 h.symm
      simp
  | cons c front ih =>
      obtain ⟨c', front', rfl⟩ := List.exists_cons_of_length_eq_add_one h.symm
      rw [List.cons_append, List.cons_append, List.cons_lt_cons_iff, List.cons_lt_cons_iff,
        ih (Nat.succ.inj h), List.cons.injEq]
      tauto

theorem padded_append_lt_iff (hsize : 0 < size) {a b : Nat} (ha : a < 10 ^ size)
    (hb : b < 10 ^ size) {back back' : List Char} :
    padded size a ++ back < padded size b ++ back' ↔ a < b ∨ a = b ∧ back < back' := by
  have hlength : (padded size a).length = (padded size b).length := by
    rw [length_padded hsize ha, length_padded hsize hb]
  have hsame : padded size a = padded size b ↔ a = b := by
    constructor
    · intro hpadded
      have hvalue := congrArg value hpadded
      rwa [value_padded, value_padded] at hvalue
    · intro hnumber
      rw [hnumber]
  rw [append_lt_append_iff hlength, Decimal.lt_iff_value_lt (fun c => isDigit_of_mem_padded)
    (fun c => isDigit_of_mem_padded) hlength, value_padded, value_padded, hsame]

theorem cons_lt_cons_self_iff {c : Char} {back back' : List Char} :
    c :: back < c :: back' ↔ back < back' := by
  rw [List.cons_lt_cons_iff, or_iff_right (lt_irrefl c), and_iff_right rfl]

theorem dateText_append_lt_iff {d' : Date} (h : d.isValid = true) (h' : d'.isValid = true)
    (hlow : 0 ≤ d.year) (hhigh : d.year ≤ 9999) (hlow' : 0 ≤ d'.year) (hhigh' : d'.year ≤ 9999)
    {back back' : List Char} :
    dateText d ++ back < dateText d' ++ back' ↔ d.Before d' ∨ d = d' ∧ back < back' := by
  have hmonth := (month_of_isValid h).2
  have hmonth' := (month_of_isValid h').2
  have hday := day_le_of_isValid h
  have hday' := day_le_of_isValid h'
  have hsame : d = d' ↔ d.year = d'.year ∧ d.month = d'.month ∧ d.day = d'.day := by
    obtain ⟨year, month, day⟩ := d
    obtain ⟨year', month', day'⟩ := d'
    exact Iff.of_eq (Date.mk.injEq ..)
  simp only [dateText, List.append_assoc, List.cons_append]
  rw [padded_append_lt_iff (by decide) (by omega) (by omega), cons_lt_cons_self_iff,
    padded_append_lt_iff (by decide) (by omega) (by omega), cons_lt_cons_self_iff,
    padded_append_lt_iff (by decide) (by omega) (by omega), Date.Before, hsame]
  by_cases hbehind : back < back'
  · simp only [hbehind, and_true]
    omega
  · simp only [hbehind, and_false, or_false]
    omega

theorem clockText_append_lt_iff {second second' : Nat} (h : second < 86400) (h' : second' < 86400)
    {back : List Char} : clockText second ++ back < clockText second' ++ back ↔ second < second' := by
  simp only [clockText, List.append_assoc, List.cons_append]
  rw [padded_append_lt_iff (by decide) (by omega) (by omega), cons_lt_cons_self_iff,
    padded_append_lt_iff (by decide) (by omega) (by omega), cons_lt_cons_self_iff,
    padded_append_lt_iff (by decide) (by omega) (by omega)]
  simp only [lt_irrefl, and_false, or_false]
  omega

/-- **Timestamps are ordered as the instants that they write.** -/
theorem timestamp_lt_iff {later : Int} {written written' : String}
    (h : timestamp instant = some written) (h' : timestamp later = some written') :
    written < written' ↔ instant < later := by
  obtain ⟨hwritable, rfl⟩ := timestamp_eq_some_iff.1 h
  obtain ⟨hwritable', rfl⟩ := timestamp_eq_some_iff.1 h'
  have hvalid := isValid_instantDate instant
  have hvalid' := isValid_instantDate later
  obtain ⟨hlow, hhigh⟩ := secondOfDay_within instant
  obtain ⟨hlow', hhigh'⟩ := secondOfDay_within later
  rw [daySeconds] at hhigh hhigh'
  have hsame : instantDate instant = instantDate later ↔
      (instantDate instant).dayNumber = (instantDate later).dayNumber :=
    ⟨congrArg Date.dayNumber, eq_of_dayNumber_eq hvalid hvalid'⟩
  rw [String.lt_iff_toList_lt, String.toList_ofList, String.toList_ofList, timestampText, timestampText,
    dateText_append_lt_iff hvalid hvalid' hwritable.1 hwritable.2 hwritable'.1 hwritable'.2,
    cons_lt_cons_self_iff, clockText_append_lt_iff (by omega) (by omega),
    ← dayNumber_lt_iff hvalid hvalid', hsame]
  -- the later instant is on a later day, or later on the same one
  simp only [instantDate, dayNumber_dateOf, secondOfDay, daySeconds] at *
  omega

end FacetSearch.Calendar

import FacetSearch.Calendar
import Mathlib

set_option autoImplicit false

/-! # Dates and the numbers of their days

Every day has one date and every date one day: `dateOf` and `Date.dayNumber` undo each other
(`dayNumber_dateOf`, `dateOf_dayNumber`). Days follow each other as their dates do, compared by year,
then by month, then by day (`dayNumber_lt_iff`). Nothing here is bounded: the years run back before
year zero as far as they run on. -/

namespace FacetSearch.Calendar

variable {d d' : Date} {year day : Int} {month : Nat}

/-! ## Years -/

/-- The days of a year. -/
def yearLength (year : Int) : Nat := if isLeap year then 366 else 365

theorem firstDay_succ (year : Int) : firstDay (year + 1) = firstDay year + yearLength year := by
  unfold yearLength
  split
  · next h =>
    simp only [isLeap, Bool.and_eq_true, Bool.or_eq_true, decide_eq_true_eq, ne_eq] at h
    simp only [firstDay]
    omega
  · next h =>
    simp only [isLeap, Bool.and_eq_true, Bool.or_eq_true, decide_eq_true_eq, ne_eq] at h
    simp only [firstDay]
    omega

theorem strictMono_firstDay : StrictMono firstDay := by
  refine strictMono_int_of_lt_succ fun year => ?_
  rw [firstDay_succ, yearLength]
  split <;> omega

/-- Four centuries have 146097 days, which is exact enough to miss a year by at most one. -/
theorem yearOf_within (day : Int) :
    firstDay (yearOf day) ≤ day ∧ day < firstDay (yearOf day + 1) := by
  simp only [yearOf]
  split
  · next h =>
    rw [Int.sub_add_cancel]
    simp only [firstDay] at h ⊢
    omega
  · next h =>
    split
    · next h' =>
      simp only [firstDay] at h h' ⊢
      omega
    · next h' => exact ⟨by omega, by omega⟩

/-! ## Months -/

theorem sum_monthLengths (year : Int) : (monthLengths year).sum = yearLength year := by
  unfold monthLengths yearLength
  split <;> rfl

theorem daysBefore_eq_sum (year : Int) (month : Nat) :
    daysBefore year month = ((monthLengths year).take (month - 1)).sum := by
  rw [daysBefore, List.sum_eq_foldl]

theorem daysBefore_succ (h : 1 ≤ month) :
    daysBefore year (month + 1) = daysBefore year month + monthLength year month := by
  obtain ⟨before, rfl⟩ := Nat.exists_eq_add_of_le' h
  simp only [daysBefore_eq_sum, monthLength, Nat.add_sub_cancel, Nat.add_eq_zero_iff, one_ne_zero,
    and_false, if_false]
  rw [List.take_add_one, List.sum_append, List.getD_eq_getElem?_getD]
  cases (monthLengths year)[before]? <;> simp

theorem monotone_daysBefore (year : Int) : Monotone (daysBefore year) := by
  refine monotone_nat_of_le_succ fun month => ?_
  cases month with
  | zero => rfl
  | succ month =>
      rw [daysBefore_succ (Nat.le_add_left 1 month)]
      exact Nat.le_add_right _ _

theorem daysBefore_le (year : Int) (month : Nat) : daysBefore year month ≤ yearLength year := by
  rw [daysBefore_eq_sum, ← sum_monthLengths]
  exact (List.take_sublist _ _).sum_le_sum fun _ _ => Nat.zero_le _

/-! ## Valid dates -/

theorem isValid_iff : d.isValid = true ↔ 1 ≤ d.day ∧ d.day ≤ monthLength d.year d.month := by
  simp [Date.isValid]

theorem month_of_isValid (h : d.isValid = true) : 1 ≤ d.month ∧ d.month ≤ 12 := by
  obtain ⟨hpos, hle⟩ := isValid_iff.1 h
  constructor
  · by_contra hzero
    rw [monthLength, if_pos (by omega)] at hle
    omega
  · by_contra hlate
    have hlength : (monthLengths d.year).length = 12 := rfl
    rw [monthLength, if_neg (by omega), List.getD_eq_default _ _ (by omega)] at hle
    omega

theorem day_le_of_isValid (h : d.isValid = true) : d.day ≤ 31 := by
  obtain ⟨-, hle⟩ := isValid_iff.1 h
  refine hle.trans ?_
  obtain ⟨hone, htwelve⟩ := month_of_isValid h
  rw [monthLength, if_neg (by omega), monthLengths]
  interval_cases d.month <;> simp
  split <;> omega

/-- The days up to a date lie before the next month. -/
theorem daysBefore_add_day_le (h : d.isValid = true) :
    daysBefore d.year d.month + d.day ≤ daysBefore d.year (d.month + 1) := by
  obtain ⟨-, hle⟩ := isValid_iff.1 h
  rw [daysBefore_succ (month_of_isValid h).1]
  omega

theorem dayNumber_within (h : d.isValid = true) :
    firstDay d.year ≤ d.dayNumber ∧ d.dayNumber < firstDay (d.year + 1) := by
  have hday := (isValid_iff.1 h).1
  have hmonth := (daysBefore_add_day_le h).trans (daysBefore_le _ _)
  rw [firstDay_succ, Date.dayNumber]
  omega

/-! ## Order -/

/-- Dates compared by year, then by month, then by day. -/
def Date.Before (d d' : Date) : Prop :=
  d.year < d'.year ∨ d.year = d'.year ∧ (d.month < d'.month ∨ d.month = d'.month ∧ d.day < d'.day)

theorem Date.before_or_eq_or_before (d d' : Date) : d.Before d' ∨ d = d' ∨ d'.Before d := by
  obtain ⟨year, month, day⟩ := d
  obtain ⟨year', month', day'⟩ := d'
  simp only [Date.Before, Date.mk.injEq]
  omega

theorem dayNumber_lt_of_before (h : d.isValid = true) (h' : d'.isValid = true)
    (hbefore : d.Before d') : d.dayNumber < d'.dayNumber := by
  have hday' := (isValid_iff.1 h').1
  rcases hbefore with hyear | ⟨hyear, hmonth | ⟨hmonth, hday⟩⟩
  · have hnext := strictMono_firstDay.monotone (Int.add_one_le_of_lt hyear)
    exact (dayNumber_within h).2.trans_le (hnext.trans (dayNumber_within h').1)
  · have hnext := monotone_daysBefore d'.year (Nat.add_one_le_of_lt hmonth)
    have hlast := daysBefore_add_day_le h
    rw [hyear] at hlast
    rw [Date.dayNumber, Date.dayNumber, hyear]
    omega
  · rw [Date.dayNumber, Date.dayNumber, hyear, hmonth]
    omega

/-- **Days follow each other as their dates do.** -/
theorem dayNumber_lt_iff (h : d.isValid = true) (h' : d'.isValid = true) :
    d.dayNumber < d'.dayNumber ↔ d.Before d' := by
  refine ⟨fun hlt => ?_, dayNumber_lt_of_before h h'⟩
  rcases d.before_or_eq_or_before d' with hbefore | rfl | hafter
  · exact hbefore
  · exact absurd hlt (lt_irrefl _)
  · exact absurd hlt (dayNumber_lt_of_before h' h hafter).not_gt

theorem eq_of_dayNumber_eq (h : d.isValid = true) (h' : d'.isValid = true)
    (hsame : d.dayNumber = d'.dayNumber) : d = d' := by
  rcases d.before_or_eq_or_before d' with hbefore | heq | hafter
  · exact absurd hsame (dayNumber_lt_of_before h h' hbefore).ne
  · exact heq
  · exact absurd hsame (dayNumber_lt_of_before h' h hafter).ne'

/-! ## The date of a day -/

/-- Where a day of the year lies among months of given lengths. -/
theorem monthAndDay_spec {lengths : List Nat} {rest : Nat} (h : rest < lengths.sum) (month : Nat) :
    ∃ k day, monthAndDay rest month lengths = (month + k, day) ∧
      rest + 1 = (lengths.take k).sum + day ∧ 1 ≤ day ∧ day ≤ lengths.getD k 0 := by
  induction lengths generalizing rest month with
  | nil => exact absurd h (by simp)
  | cons length later ih =>
      rw [List.sum_cons] at h
      rw [monthAndDay]
      by_cases hfirst : rest < length
      · rw [if_pos hfirst]
        exact ⟨0, rest + 1, rfl, by simp, by omega, by simpa using hfirst⟩
      · rw [if_neg hfirst]
        have hless : rest - length < later.sum := by omega
        obtain ⟨k, day, hfound, hrest, hpos, hle⟩ := ih hless (month + 1)
        refine ⟨k + 1, day, ?_, ?_, hpos, by simpa using hle⟩
        · rw [hfound, Nat.add_assoc, Nat.add_comm 1 k]
        · rw [List.take_succ_cons, List.sum_cons]
          omega

/-- **The date of a day is a date, and its day is that day.** -/
theorem isValid_dateOf_and (day : Int) :
    (dateOf day).isValid = true ∧ (dateOf day).dayNumber = day := by
  obtain ⟨hlow, hhigh⟩ := yearOf_within day
  rw [firstDay_succ] at hhigh
  have hrest : (day - firstDay (yearOf day)).toNat < (monthLengths (yearOf day)).sum := by
    rw [sum_monthLengths]
    omega
  obtain ⟨k, dayIn, hfound, hsum, hpos, hle⟩ := monthAndDay_spec hrest 1
  have hdate : dateOf day = ⟨yearOf day, 1 + k, dayIn⟩ := by
    simp only [dateOf, hfound]
  rw [hdate]
  constructor
  · simp only [isValid_iff, monthLength, Nat.add_sub_cancel_left]
    rw [if_neg (by omega)]
    exact ⟨hpos, hle⟩
  · simp only [Date.dayNumber, daysBefore_eq_sum, Nat.add_sub_cancel_left]
    omega

theorem isValid_dateOf (day : Int) : (dateOf day).isValid = true := (isValid_dateOf_and day).1

@[simp] theorem dayNumber_dateOf (day : Int) : (dateOf day).dayNumber = day :=
  (isValid_dateOf_and day).2

/-- **A date is the date of its day.** -/
theorem dateOf_dayNumber (h : d.isValid = true) : dateOf d.dayNumber = d :=
  eq_of_dayNumber_eq (isValid_dateOf _) h (dayNumber_dateOf _)

end FacetSearch.Calendar

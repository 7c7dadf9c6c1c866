import FacetSearch.Number.Decimal

set_option autoImplicit false

/-! # Calendar dates and instants

Dates of the proleptic Gregorian calendar, which has a year zero, and instants as whole seconds since
the first moment of 1970 in universal time. An instant is read from a plain date, which means its
midnight, or from an RFC 3339 timestamp, and written as a timestamp that ends in `Z`.

Days are counted from the first day of year zero. `firstDay` gives the day a year begins on in closed
form, and `yearOf` inverts it: an estimate from the length of four centuries is off by at most one
year. -/

namespace FacetSearch.Calendar

/-! ## Dates -/

structure Date where
  year : Int
  month : Nat
  day : Nat
deriving DecidableEq, Repr

def isLeap (year : Int) : Bool :=
  year % 4 = 0 && (year % 100 ≠ 0 || year % 400 = 0)

/-- The lengths of the months of a year. -/
def monthLengths (year : Int) : List Nat :=
  [31, if isLeap year then 29 else 28, 31, 30, 31, 30, 31, 31, 30, 31, 30, 31]

/-- The length of month `month`, counted from 1; zero for no month. -/
def monthLength (year : Int) (month : Nat) : Nat :=
  if month = 0 then 0 else (monthLengths year).getD (month - 1) 0

def Date.isValid (d : Date) : Bool := 1 ≤ d.day && d.day ≤ monthLength d.year d.month

/-- The number of days before a year, from the first day of year zero. -/
def firstDay (year : Int) : Int :=
  365 * year + (year + 3) / 4 - (year + 99) / 100 + (year + 399) / 400

/-- The number of days of a year before a month. -/
def daysBefore (year : Int) (month : Nat) : Nat :=
  ((monthLengths year).take (month - 1)).foldl (· + ·) 0

/-- The number of a date's day, from the first day of year zero. -/
def Date.dayNumber (d : Date) : Int :=
  firstDay d.year + daysBefore d.year d.month + d.day - 1

/-- The year that a day lies in. -/
def yearOf (day : Int) : Int :=
  let estimate := 400 * day / 146097
  if day < firstDay estimate then estimate - 1
  else if firstDay (estimate + 1) ≤ day then estimate + 1
  else estimate

/-- The month and the day in it, for a day `rest` counted from the start of month `month`. -/
def monthAndDay (rest : Nat) (month : Nat) : List Nat → Nat × Nat
  | [] => (month, rest + 1)
  | length :: later =>
    if rest < length then (month, rest + 1) else monthAndDay (rest - length) (month + 1) later

/-- The date of a day. -/
def dateOf (day : Int) : Date :=
  let year := yearOf day
  let (month, day) := monthAndDay (day - firstDay year).toNat 1 (monthLengths year)
  { year, month, day }

/-! ## Instants -/

/-- The day number of the first of January 1970. -/
def epochDay : Int := 719528

def daySeconds : Int := 86400

/-- The instant at a second of a date, in universal time. -/
def Date.at (d : Date) (second : Int) : Int := (d.dayNumber - epochDay) * daySeconds + second

/-- The date that an instant lies in. -/
def instantDate (instant : Int) : Date := dateOf (instant / daySeconds + epochDay)

/-- The second of its day that an instant is. -/
def secondOfDay (instant : Int) : Int := instant % daySeconds

/-! ## Reading -/

/-- A number of exactly `size` digits. -/
def readNumber (size : Nat) (text : List Char) : Option (Nat × List Char) :=
  let digits := text.take size
  if digits.length = size && digits.all Decimal.isDigit then
    some (Decimal.value digits, text.drop size)
  else none

/-- The character `c`. -/
def readChar (c : Char) : List Char → Option (List Char)
  | d :: rest => if d = c then some rest else none
  | [] => none

/-- A month and a day after a year, with dashes before them. -/
def readMonthDay (year : Int) (text : List Char) : Option (Date × List Char) := do
  let rest ← readChar '-' text
  let (month, rest) ← readNumber 2 rest
  let rest ← readChar '-' rest
  let (day, rest) ← readNumber 2 rest
  let d : Date := { year, month, day }
  if d.isValid then some (d, rest) else none

/-- A plain date: a year of four digits, which may have a sign, and two digits each for month and
    day. -/
def plainDate? (text : List Char) : Option Date := do
  let (sign, rest) := Decimal.leadingSign text
  let (year, rest) ← readNumber 4 rest
  let (d, rest) ← readMonthDay (if sign = some true then -(year : Int) else year) rest
  if rest.isEmpty then some d else none

/-- A fraction of a second, which has at least one digit. It is not kept. -/
def skipFraction : List Char → Option (List Char)
  | '.' :: rest =>
    let (digits, rest) := Decimal.leadingDigits rest
    if digits.isEmpty then none else some rest
  | rest => some rest

/-- A zone: `Z`, or a sign with hours up to 23 and minutes. Its seconds east of universal time. -/
def readZone (text : List Char) : Option (Int × List Char) :=
  match text with
  | 'Z' :: rest | 'z' :: rest => some (0, rest)
  | _ => do
    let (sign, rest) := Decimal.leadingSign text
    let west ← sign
    let (hours, rest) ← readNumber 2 rest
    let rest ← readChar ':' rest
    let (minutes, rest) ← readNumber 2 rest
    if hours ≤ 23 ∧ minutes ≤ 59 then
      let seconds : Int := hours * 3600 + minutes * 60
      some (if west then -seconds else seconds, rest)
    else none

/-- A leap second may follow an instant: it is the last second of a month. -/
def precedesLeapSecond (instant : Int) : Bool :=
  let d := instantDate instant
  secondOfDay instant = daySeconds - 1 && d.day = monthLength d.year d.month

/-- An RFC 3339 timestamp. Any single ASCII character may part the date from the time, and second 60
    stands for the second before it where a leap second may be. -/
def timestamp? (text : List Char) : Option Int := do
  let (year, rest) ← readNumber 4 text
  let (d, rest) ← readMonthDay year rest
  let rest ← match rest with
    | c :: rest => if c.toNat < 128 then some rest else none
    | [] => none
  let (hour, rest) ← readNumber 2 rest
  let rest ← readChar ':' rest
  let (minute, rest) ← readNumber 2 rest
  let rest ← readChar ':' rest
  let (second, rest) ← readNumber 2 rest
  let rest ← skipFraction rest
  let (zone, rest) ← readZone rest
  if hour ≤ 23 ∧ minute ≤ 59 ∧ second ≤ 60 ∧ rest.isEmpty then
    let kept := min second 59
    let instant := d.at (hour * 3600 + minute * 60 + kept) - zone
    if second = 60 ∧ !precedesLeapSecond instant then none else some instant
  else none

/-- The instant that a plain date or a timestamp writes. -/
def instant? (text : List Char) : Option Int :=
  match plainDate? text with
  | some d => some (d.at 0)
  | none => timestamp? text

/-! ## Writing -/

/-- A number with zeros in front up to `size` digits. -/
def padded (size n : Nat) : List Char :=
  let digits := Nat.toDigits 10 n
  List.replicate (size - digits.length) '0' ++ digits

/-- The instant as a timestamp in universal time, for the years from 0 to 9999. -/
def timestamp (instant : Int) : Option String :=
  let d := instantDate instant
  let s := (secondOfDay instant).toNat
  if 0 ≤ d.year ∧ d.year ≤ 9999 then
    some (String.ofList (padded 4 d.year.toNat ++ '-' :: padded 2 d.month ++ '-' :: padded 2 d.day
      ++ 'T' :: padded 2 (s / 3600) ++ ':' :: padded 2 (s / 60 % 60) ++ ':' :: padded 2 (s % 60)
      ++ ['Z']))
  else none

end FacetSearch.Calendar

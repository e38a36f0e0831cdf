/-!
# Instants and dates

An instant counts seconds from the start of 1970 in Universal Time. Dates are those of the Gregorian
calendar, carried back without end. A year is counted here from March, so that the leap day is the
last one of its year.
-/

namespace BlockDocument.Time

/-- A point in time. A leap second counts as a second billion of nanoseconds of the second before. -/
structure Instant where
  /-- Whole seconds since the start of 1970. -/
  seconds : Int
  /-- Nanoseconds within the second. -/
  nanos : Nat
  deriving DecidableEq, Repr

/-- A day of the calendar. -/
structure Date where
  year : Int
  /-- From 1 to 12. -/
  month : Nat
  /-- From 1 on. -/
  day : Nat
  deriving DecidableEq, Repr

/-- Whether a year has a leap day. -/
def isLeap (year : Int) : Bool := year % 4 == 0 && (year % 100 != 0 || year % 400 == 0)

/-- The number of days of a month. -/
def monthLength (year : Int) (month : Nat) : Nat :=
  if month = 2 then (if isLeap year then 29 else 28)
  else if month = 4 ∨ month = 6 ∨ month = 9 ∨ month = 11 then 30
  else 31

/-- Whether the calendar has the day. -/
def Date.isValid (d : Date) : Bool :=
  decide (1 ≤ d.month ∧ d.month ≤ 12 ∧ 1 ≤ d.day ∧ d.day ≤ monthLength d.year d.month)

/-- Days from the start of March of year 0 to the start of 1970. -/
def epochDay : Int := 719468

/-- Days from the start of 1970 to a date. -/
def Date.dayNumber (d : Date) : Int :=
  let year := if d.month ≤ 2 then d.year - 1 else d.year
  let cycle := year / 400
  let yearOfCycle := year % 400
  let dayOfYear : Int := ((153 * ((d.month + 9) % 12) + 2) / 5 + d.day : Nat) - 1
  cycle * 146097 + (yearOfCycle * 365 + yearOfCycle / 4 - yearOfCycle / 100 + dayOfYear) - epochDay

/-- The date that is some days after the start of 1970. -/
def Date.ofDayNumber (n : Int) : Date :=
  let n := n + epochDay
  let cycle := n / 146097
  let dayOfCycle := n % 146097
  let yearOfCycle := (dayOfCycle - dayOfCycle / 1460 + dayOfCycle / 36524 - dayOfCycle / 146096) / 365
  let dayOfYear := (dayOfCycle - (365 * yearOfCycle + yearOfCycle / 4 - yearOfCycle / 100)).toNat
  let marchMonth := (5 * dayOfYear + 2) / 153
  let day := dayOfYear - (153 * marchMonth + 2) / 5 + 1
  let month := if marchMonth < 10 then marchMonth + 3 else marchMonth - 9
  ⟨yearOfCycle + cycle * 400 + (if month ≤ 2 then 1 else 0), month, day⟩

/-- Seconds in a day. -/
def daySeconds : Int := 86400

/-- The date of an instant, in Universal Time. -/
def Instant.date (t : Instant) : Date := .ofDayNumber (t.seconds / daySeconds)

/-- The second of its day at which an instant lies. -/
def Instant.secondOfDay (t : Instant) : Nat := (t.seconds % daySeconds).toNat

end BlockDocument.Time

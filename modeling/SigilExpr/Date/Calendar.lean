/-!
# Days of the calendar

Dates count years, months and days of the Gregorian calendar, extended to all years, and times are
counted from the beginning of 1970.
-/

set_option autoImplicit false

namespace SigilExpr.Date

def isLeap (year : Int) : Bool :=
  year % 4 == 0 && (year % 100 != 0 || year % 400 == 0)

def daysInMonth (year : Int) (month : Nat) : Nat :=
  match month with
  | 2 => if isLeap year then 29 else 28
  | 4 | 6 | 9 | 11 => 30
  | _ => 31

def daysBeforeYear (year : Int) : Int :=
  let y := year - 1
  365 * y + y / 4 - y / 100 + y / 400

def daysBeforeMonth (year : Int) : Nat → Nat
  | 0 => 0
  | 1 => 0
  | month + 2 => daysBeforeMonth year (month + 1) + daysInMonth year (month + 1)

/-- The days from the beginning of 1970 to a date. -/
def dayNumber (year : Int) (month day : Nat) : Int :=
  daysBeforeYear year + daysBeforeMonth year month + day - 1 - daysBeforeYear 1970

/-- A date and a time of day, some seconds ahead of the time at the zero meridian. -/
structure Stamp where
  year : Int
  month : Nat
  day : Nat
  hour : Nat := 0
  minute : Nat := 0
  second : Nat := 0
  milliseconds : Nat := 0
  offset : Int := 0

namespace Stamp

/-- Whether there is such a date and time; the sixtieth second is a leap second. -/
def isValid (t : Stamp) : Bool :=
  -262143 ≤ t.year && t.year ≤ 262142 && 1 ≤ t.month && t.month ≤ 12 && 1 ≤ t.day
    && t.day ≤ daysInMonth t.year t.month && t.hour ≤ 23 && t.minute ≤ 59 && t.second ≤ 60

def epochMilliseconds (t : Stamp) : Int :=
  let seconds := dayNumber t.year t.month t.day * 86400 + t.hour * 3600 + t.minute * 60 + t.second
  (seconds - t.offset) * 1000 + t.milliseconds

end Stamp

end SigilExpr.Date

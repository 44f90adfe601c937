/-
Calendar dates of the proleptic Gregorian calendar and their text: year, month and day between
hyphens, a year before 0 or after 9999 with its sign.
-/
import QueryMethods.Text.Padding
namespace QueryMethods

/-- A day of the proleptic Gregorian calendar, whose years may be negative. -/
structure CalendarDate where
  year : Int
  month : Nat
  day : Nat
  deriving DecidableEq

namespace CalendarDate

/-- A number in at least so many digits. -/
def digits (width n : Nat) : String :=
  Text.padStart '0' width (toString n)

/-- At least four digits, with a sign before a negative year and before one of more than four digits. -/
def renderYear (year : Int) : String :=
  let sign := if year < 0 then "-" else if year ≤ 9999 then "" else "+"
  sign ++ digits 4 year.natAbs

/-- The date as year, month and day with dashes between them. -/
def render (d : CalendarDate) : String :=
  renderYear d.year ++ "-" ++ digits 2 d.month ++ "-" ++ digits 2 d.day

end CalendarDate

end QueryMethods

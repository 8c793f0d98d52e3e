/-!
Points in time, in milliseconds from the start of 1970 in universal time, and
their place in the calendar. The calendar is the Gregorian one, carried on in
both directions.
-/

namespace QueryPipeline.Calendar

/-- Milliseconds of a day. -/
def dayLength : Int := 86400000

/-- A day of the calendar. -/
structure Date where
  year : Int
  month : Nat
  day : Nat
deriving DecidableEq, Repr

/-- The date a number of days after the start of 1970. Years are counted from
March on, so that the leap day is the last day of its year, in eras of 400
years, which all have 146097 days. -/
def Date.ofDays (days : Int) : Date :=
  let shifted := days + 719468
  let era := shifted.fdiv 146097
  let inEra := (shifted - era * 146097).toNat
  let yearOfEra := (inEra - inEra / 1460 + inEra / 36524 - inEra / 146096) / 365
  let dayOfYear := inEra - (365 * yearOfEra + yearOfEra / 4 - yearOfEra / 100)
  let fromMarch := (5 * dayOfYear + 2) / 153
  let day := dayOfYear - (153 * fromMarch + 2) / 5 + 1
  let month := if fromMarch < 10 then fromMarch + 3 else fromMarch - 9
  let year : Int := yearOfEra + era * 400
  ⟨if month ≤ 2 then year + 1 else year, month, day⟩

/-- A number with leading zeros up to a width. -/
def padded (width n : Nat) : String :=
  let digits := Nat.toDigits 10 n
  String.ofList (List.replicate (width - digits.length) '0' ++ digits)

/-- A year has at least four digits, and a sign if it is not one of the years
from 0 to 9999. -/
def yearText (year : Int) : String :=
  if year < 0 then "-" ++ padded 4 year.natAbs
  else if year > 9999 then "+" ++ padded 4 year.natAbs
  else padded 4 year.natAbs

/-- The text of a date. -/
def Date.text (d : Date) : String :=
  yearText d.year ++ "-" ++ padded 2 d.month ++ "-" ++ padded 2 d.day

/-- The fraction of a second, without zeros at its end but with one digit. -/
def fractionText (milliseconds : Nat) : String :=
  if milliseconds % 100 = 0 then padded 1 (milliseconds / 100)
  else if milliseconds % 10 = 0 then padded 2 (milliseconds / 10)
  else padded 3 milliseconds

/-- The time of day, the hour without a leading zero. -/
def timeText (milliseconds : Nat) : String :=
  toString (milliseconds / 3600000) ++ ":" ++ padded 2 (milliseconds / 60000 % 60) ++ ":" ++
    padded 2 (milliseconds / 1000 % 60) ++ "." ++ fractionText (milliseconds % 1000)

/-- Date, time and offset of a point in time. A point outside the years that
have at most six digits has no date and shows its milliseconds. -/
def instantText (milliseconds : Int) : String :=
  let days := milliseconds.fdiv dayLength
  let date := Date.ofDays days
  if date.year.natAbs ≤ 999999 then
    date.text ++ " " ++ timeText (milliseconds - days * dayLength).toNat ++ " +00:00:00"
  else toString milliseconds

end QueryPipeline.Calendar

import CalendarQuery.Text.Decimal

/-!
# Time stamps

Dates of the Gregorian calendar, extended to all years of a fixed range, and instants in UTC. A
leap second is second 60 of its minute.

* `Date.ofCivil?`: the date with a given year, month and day, if there is one.
* `Date.next?`, `Date.previous?`: the neighbouring days.
* `Stamp.compact`: `20240301T093000Z`, the form in which filters are written.
* `Stamp.extended`: `2024-03-01T09:30:00Z`, the form of result documents.
-/

namespace CalendarQuery

/-- The years that have dates. -/
def yearInRange (year : Int) : Prop := -262143 ≤ year ∧ year ≤ 262142

instance (year : Int) : Decidable (yearInRange year) := inferInstanceAs (Decidable (_ ∧ _))

/-- A leap year: divisible by four, and by 400 if by 100. -/
def isLeapYear (year : Int) : Bool := year % 4 == 0 && (year % 100 != 0 || year % 400 == 0)

/-- The number of days of a month, from 1 on; no other number has any. -/
def daysInMonth (year : Int) (month : Nat) : Nat :=
  match month with
  | 1 | 3 | 5 | 7 | 8 | 10 | 12 => 31
  | 4 | 6 | 9 | 11 => 30
  | 2 => if isLeapYear year then 29 else 28
  | _ => 0

/-- A day of the calendar. -/
structure Date where
  year : Int
  month : Nat
  day : Nat
  year_in_range : yearInRange year
  day_pos : 1 ≤ day
  day_le : day ≤ daysInMonth year month
  deriving DecidableEq, Repr

namespace Date

/-- The date of the given year, month and day, if the calendar has it. -/
def ofCivil? (year : Int) (month day : Nat) : Option Date :=
  if h : yearInRange year ∧ 1 ≤ day ∧ day ≤ daysInMonth year month then
    some ⟨year, month, day, h.1, h.2.1, h.2.2⟩
  else none

/-- The day after. -/
def next? (d : Date) : Option Date :=
  ofCivil? d.year d.month (d.day + 1) <|> ofCivil? d.year (d.month + 1) 1 <|>
    ofCivil? (d.year + 1) 1 1

/-- The day before. -/
def previous? (d : Date) : Option Date :=
  ofCivil? d.year d.month (d.day - 1) <|>
    ofCivil? d.year (d.month - 1) (daysInMonth d.year (d.month - 1)) <|>
    ofCivil? (d.year - 1) 12 31

/-- The year with four digits, and a sign when that many do not do. -/
def yearText (year : Int) : String :=
  if 0 ≤ year ∧ year ≤ 9999 then Text.padded 4 year.natAbs
  else (if year < 0 then "-" else "+") ++ Text.padded 4 year.natAbs

theorem ofCivil?_self (d : Date) : ofCivil? d.year d.month d.day = some d := by
  simp [ofCivil?, d.year_in_range, d.day_pos, d.day_le]

end Date

/-- An instant in UTC. -/
structure Stamp where
  date : Date
  hour : Nat
  minute : Nat
  /-- Second 60 is a leap second. -/
  second : Nat
  nanosecond : Nat
  hour_lt : hour < 24
  minute_lt : minute < 60
  second_le : second ≤ 60
  nanosecond_lt : nanosecond < 1000000000
  deriving DecidableEq, Repr

namespace Stamp

/-- The instant at the given time of a day, if there is such a time. -/
def at? (date : Date) (hour minute second nanosecond : Nat) : Option Stamp :=
  if h : hour < 24 ∧ minute < 60 ∧ second ≤ 60 ∧ nanosecond < 1000000000 then
    some ⟨date, hour, minute, second, nanosecond, h.1, h.2.1, h.2.2.1, h.2.2.2⟩
  else none

/-- The start of a day. -/
def midnight (date : Date) : Stamp :=
  ⟨date, 0, 0, 0, 0, by decide, by decide, by decide, by decide⟩

/-- The same second without its fraction. -/
def wholeSecond (t : Stamp) : Stamp := { t with nanosecond := 0, nanosecond_lt := by decide }

/-- The written form of filters, to the second. -/
def compact (t : Stamp) : String :=
  Date.yearText t.date.year ++ Text.padded 2 t.date.month ++ Text.padded 2 t.date.day ++ "T" ++
    Text.padded 2 t.hour ++ Text.padded 2 t.minute ++ Text.padded 2 t.second ++ "Z"

/-- A fraction of a second with three, six or nine digits, whichever are needed. -/
def fractionText (nanosecond : Nat) : String :=
  if nanosecond = 0 then ""
  else if nanosecond % 1000000 = 0 then "." ++ Text.padded 3 (nanosecond / 1000000)
  else if nanosecond % 1000 = 0 then "." ++ Text.padded 6 (nanosecond / 1000)
  else "." ++ Text.padded 9 nanosecond

/-- The form of result documents, with the fraction. -/
def extended (t : Stamp) : String :=
  Date.yearText t.date.year ++ "-" ++ Text.padded 2 t.date.month ++ "-" ++
    Text.padded 2 t.date.day ++ "T" ++ Text.padded 2 t.hour ++ ":" ++ Text.padded 2 t.minute ++
    ":" ++ Text.padded 2 t.second ++ fractionText t.nanosecond ++ "Z"

end Stamp

end CalendarQuery

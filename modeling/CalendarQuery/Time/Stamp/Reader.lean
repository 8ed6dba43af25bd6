import CalendarQuery.Text.Blank
import CalendarQuery.Time.Stamp

/-!
# Reading time stamps

Two families of spellings are read.

* Compact: `20240301T093000Z`, without `Z` (taken as UTC), or the date alone (midnight). Each
  number may have blanks before it and fewer digits than its width; a year with a sign may have
  any number of digits.
* Extended: `2024-03-01T09:30:00.25+01:00`, with fixed widths, a fraction of any length, `Z` or an
  offset of hours and minutes.

`Stamp.ofBound?` reads either and drops the fraction; `Stamp.ofExtended?` keeps it.
-/

namespace CalendarQuery.Stamp

open Text

/-! ## Compact forms -/

/-- A number of one to `width` digits after blanks. -/
def number? (width : Nat) (cs : List Char) : Option (Nat × List Char) :=
  let cs := trimStart cs
  let digits := (cs.take width).takeWhile isDigit
  if digits.isEmpty then none else some (natOfDigits digits, cs.drop digits.length)

/-- A number of one or more digits. -/
def digits? (cs : List Char) : Option (Nat × List Char) :=
  let digits := cs.takeWhile isDigit
  if digits.isEmpty then none else some (natOfDigits digits, cs.drop digits.length)

/-- A year after blanks: up to four digits, or a sign and any number of digits. -/
def year? (cs : List Char) : Option (Int × List Char) :=
  match trimStart cs with
  | '-' :: cs => (digits? cs).map fun (n, rest) => (-(n : Int), rest)
  | '+' :: cs => (digits? cs).map fun (n, rest) => ((n : Int), rest)
  | cs => (number? 4 cs).map fun (n, rest) => ((n : Int), rest)

/-- The rest of the text after the character `c`. -/
def skip? (c : Char) : List Char → Option (List Char)
  | d :: cs => if d = c then some cs else none
  | [] => none

/-- A date: year, month and day. -/
def date? (cs : List Char) : Option (Date × List Char) := do
  let (year, cs) ← year? cs
  let (month, cs) ← number? 2 cs
  let (day, cs) ← number? 2 cs
  let date ← Date.ofCivil? year month day
  some (date, cs)

/-- A date, `T`, and a time of day. -/
def dateTime? (cs : List Char) : Option (Stamp × List Char) := do
  let (date, cs) ← date? cs
  let cs ← skip? 'T' cs
  let (hour, cs) ← number? 2 cs
  let (minute, cs) ← number? 2 cs
  let (second, cs) ← number? 2 cs
  let stamp ← Stamp.at? date hour minute second 0
  some (stamp, cs)

/-- A whole text in one of the compact forms. -/
def ofCompact? (cs : List Char) : Option Stamp :=
  let timed := match dateTime? cs with
    | some (t, []) => some t
    | some (t, ['Z']) => some t
    | _ => none
  let dated := match date? cs with
    | some (d, []) => some (midnight d)
    | _ => none
  timed <|> dated

/-! ## Extended form -/

/-- A number of exactly `width` digits. -/
def fixed? (width : Nat) (cs : List Char) : Option (Nat × List Char) :=
  let digits := cs.take width
  if digits.length = width ∧ digits.all isDigit then some (natOfDigits digits, cs.drop width)
  else none

/-- A fraction in nanoseconds; digits after the ninth are dropped. Without a point it is zero. -/
def fraction? : List Char → Option (Nat × List Char)
  | '.' :: cs =>
    let digits := cs.takeWhile isDigit
    if digits.isEmpty then none
    else
      let kept := digits.take 9
      some (natOfDigits kept * Nat.pow 10 (9 - kept.length), cs.drop digits.length)
  | cs => some (0, cs)

/-- A distance from UTC in minutes and its direction: east (`true`) or west. -/
def offset? (cs : List Char) : Option (Bool × Nat × List Char) :=
  let distance (east : Bool) (cs : List Char) : Option (Bool × Nat × List Char) := do
    let (hours, cs) ← fixed? 2 cs
    let cs ← skip? ':' cs
    let (minutes, cs) ← fixed? 2 cs
    if hours < 24 ∧ minutes < 60 then some (east, 60 * hours + minutes, cs) else none
  match cs with
  | 'Z' :: cs => some (true, 0, cs)
  | 'z' :: cs => some (true, 0, cs)
  | '+' :: cs => distance true cs
  | '-' :: cs => distance false cs
  | '\u2212' :: cs => distance false cs
  | _ => none

/-- The instant in UTC of a local time that far east or west. -/
def toUtc? (t : Stamp) (east : Bool) (minutes : Nat) : Option Stamp :=
  let clock := 60 * t.hour + t.minute
  let place (date : Date) (clock : Nat) :=
    Stamp.at? date (clock / 60) (clock % 60) t.second t.nanosecond
  if east then
    if minutes ≤ clock then place t.date (clock - minutes)
    else t.date.previous?.bind fun date => place date (clock + 1440 - minutes)
  else
    if clock + minutes < 1440 then place t.date (clock + minutes)
    else t.date.next?.bind fun date => place date (clock + minutes - 1440)

/-- A whole text in the extended form. -/
def ofExtended? (cs : List Char) : Option Stamp := do
  let (year, cs) ← fixed? 4 cs
  let cs ← skip? '-' cs
  let (month, cs) ← fixed? 2 cs
  let cs ← skip? '-' cs
  let (day, cs) ← fixed? 2 cs
  let cs ← skip? 'T' cs <|> skip? 't' cs <|> skip? ' ' cs
  let (hour, cs) ← fixed? 2 cs
  let cs ← skip? ':' cs
  let (minute, cs) ← fixed? 2 cs
  let cs ← skip? ':' cs
  let (second, cs) ← fixed? 2 cs
  let (nanosecond, cs) ← fraction? cs
  let (east, minutes, cs) ← offset? cs
  if cs.isEmpty then
    let date ← Date.ofCivil? year month day
    let stamp ← Stamp.at? date hour minute second nanosecond
    toUtc? stamp east minutes
  else none

/-- A bound of a time range, to the second. -/
def ofBound? (cs : List Char) : Option Stamp :=
  ofCompact? cs <|> (ofExtended? cs).map wholeSecond

end CalendarQuery.Stamp

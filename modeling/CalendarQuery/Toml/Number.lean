import CalendarQuery.Text.Decimal
import CalendarQuery.Time.Stamp
import CalendarQuery.Toml.Lexical

/-!
# Numbers and times

The numbers and times of a document in the TOML format.

* `integer`: decimal with a sign, or hexadecimal, octal or binary without. It fits 64 bits.
* `float`: with a fraction or an exponent, and not too great for double precision; or `inf`, `nan`.
* `time`: a date, a time of day, or both, perhaps with an offset.
-/

namespace CalendarQuery.Toml

open Scanner

/-! ## Integers -/

/-- Digits; between two of them an underscore may stand, which does not count. -/
def digits (isDigit : Char → Bool) : Scanner (List Char) := do
  let first ← satisfy isDigit
  let others ← many (satisfy isDigit <|> (char '_' *> satisfy isDigit))
  return first :: others

/-- Decimal digits without a zero before others. -/
def decimalDigits : Scanner (List Char) :=
  (ahead (satisfy fun c => c.isDigit && c != '0') *> digits Char.isDigit) <|>
    List.singleton <$> satisfy Char.isDigit

/-- A sign, if there is one. -/
def sign : Scanner (List Char) := do
  return (← maybe (satisfy fun c => c == '+' || c == '-')).toList

/-- A decimal integer. -/
def decimalInteger : Scanner Int64 := do
  let s ← sign
  let ds ← decimalDigits
  StateT.lift (Text.int64? (s ++ ds))

/-- An integer to another base, after a mark. -/
def markedInteger (mark : Char) (base : Nat) (isDigit : Char → Bool) : Scanner Int64 := do
  word ['0', mark]
  let n := natOfDigits base (← digits isDigit)
  if (n : Int) ≤ Int64.maxValue.toInt then return Int64.ofNat n else failure

/-- An integer. -/
def integer : Scanner Int64 :=
  markedInteger 'x' 16 isHexDigit <|> markedInteger 'o' 8 (fun c => '0' ≤ c && c ≤ '7') <|>
    markedInteger 'b' 2 (fun c => '0' ≤ c && c ≤ '1') <|> decimalInteger

/-! ## Floats -/

/-- The least number that double precision rounds to infinity. -/
def overflow : Nat := Nat.pow 2 1024 - Nat.pow 2 970

/-- The number of decimal digits above which, or below which, `overflow` is surely reached or
missed. -/
def overflowDigits : Nat := 309

/-- The number `mantissa * 10 ^ exponent` is too great for double precision. -/
def overflows (mantissa : Nat) (exponent : Int) : Bool :=
  let places := (Nat.toDigits 10 mantissa).length + exponent
  if mantissa = 0 || places < overflowDigits then false
  else if overflowDigits < places then true
  else if 0 ≤ exponent then decide (overflow ≤ mantissa * Nat.pow 10 exponent.toNat)
  else decide (overflow * Nat.pow 10 (-exponent).toNat ≤ mantissa)

/-- The digits of a fraction. -/
def fraction : Scanner (List Char) := do
  char '.'
  digits Char.isDigit

/-- An exponent. -/
def exponent : Scanner Int := do
  let _ ← satisfy fun c => c == 'e' || c == 'E'
  let s ← sign
  let ds ← digits Char.isDigit
  let n := Text.natOfDigits ds
  return if s = ['-'] then -(n : Int) else n

/-- A finite float. A negative one is never too great. -/
def finiteFloat : Scanner Unit := do
  let s ← sign
  let whole ← decimalDigits
  let (frac, exp) ← ((fun e => ([], e)) <$> exponent) <|> (do
    let frac ← fraction
    let exp ← maybe exponent
    return (frac, exp.getD 0))
  let n := Text.natOfDigits (whole ++ frac)
  if s = ['-'] || !overflows n (exp - frac.length) then return () else failure

/-- A float without digits. -/
def specialFloat : Scanner Unit := do
  let _ ← sign
  word ['i', 'n', 'f'] <|> word ['n', 'a', 'n']

/-- A float, as it is written. -/
def float : Scanner String := String.ofList <$> consumed (finiteFloat <|> specialFloat)

/-! ## Times -/

/-- A number of exactly so many digits. -/
def numeral (width : Nat) : Scanner Nat := do
  return Text.natOfDigits (← times (satisfy Char.isDigit) width)

/-- A number of two digits up to a greatest one. -/
def upTo (greatest : Nat) : Scanner Unit := do
  if (← numeral 2) ≤ greatest then return () else failure

/-- A day of the calendar. -/
def day : Scanner Unit := do
  let year ← numeral 4
  char '-'
  let month ← numeral 2
  char '-'
  let day ← numeral 2
  if (Date.ofCivil? year month day).isSome then return () else failure

/-- A time of day; second 60 is a leap second. -/
def timeOfDay : Scanner Unit := do
  upTo 23
  char ':'
  upTo 59
  char ':'
  upTo 60
  let _ ← maybe (char '.' *> span1 Char.isDigit)

/-- The distance from UTC. -/
def offset : Scanner Unit :=
  (do let _ ← satisfy fun c => c == 'Z' || c == 'z') <|> do
    let _ ← satisfy fun c => c == '+' || c == '-'
    upTo 23
    char ':'
    upTo 59

/-- A time of day and perhaps an offset, after the date. -/
def timeAfterDay : Scanner Unit := do
  let _ ← satisfy fun c => c == 'T' || c == 't' || c == ' '
  timeOfDay
  let _ ← maybe offset

/-- A time, as it is written. -/
def time : Scanner String :=
  String.ofList <$> consumed ((do day; let _ ← maybe timeAfterDay) <|> timeOfDay)

end CalendarQuery.Toml

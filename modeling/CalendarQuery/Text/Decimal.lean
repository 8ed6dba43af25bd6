/-!
# Decimal numbers

* `Text.natOfDigits`: the value of a run of digits.
* `Text.int64?`: the signed 64-bit number that a text spells, if it spells one.
* `Text.unsigned64?`: the same without a sign below zero.
* `Text.padded`: a number written with at least so many digits.
-/

namespace CalendarQuery.Text

/-- The digits `0`–`9`. -/
def isDigit (c : Char) : Bool := '0' ≤ c && c ≤ '9'

/-- The value of a digit. -/
def digitValue (c : Char) : Nat := c.toNat - '0'.toNat

/-- The value of a run of digits, read from the left. -/
def natOfDigits (cs : List Char) : Nat := cs.foldl (fun n c => 10 * n + digitValue c) 0

/-- A text without its sign, and whether the sign was `-`. -/
def splitSign : List Char → Bool × List Char
  | '-' :: cs => (true, cs)
  | '+' :: cs => (false, cs)
  | cs => (false, cs)

/-- The exact value of an optional sign and one or more digits. -/
def int? (cs : List Char) : Option Int :=
  let (negative, digits) := splitSign cs
  if digits.isEmpty || !digits.all isDigit then none
  else some (if negative then -(natOfDigits digits : Int) else natOfDigits digits)

/-- The number spelled by an optional sign and digits, if it fits a signed 64-bit integer. -/
def int64? (cs : List Char) : Option Int64 := do
  let n ← int? cs
  if Int64.minValue.toInt ≤ n ∧ n ≤ Int64.maxValue.toInt then some (Int64.ofInt n) else none

/-- The number spelled by an optional `+` and digits, if it fits an unsigned 64-bit integer. -/
def unsigned64? (cs : List Char) : Option Nat :=
  let digits := match cs with
    | '+' :: ds => ds
    | ds => ds
  if digits.isEmpty || !digits.all isDigit then none
  else if natOfDigits digits < UInt64.size then some (natOfDigits digits) else none

/-- The decimal digits of `n`, with zeros before them up to `width` digits. -/
def padded (width n : Nat) : String :=
  let digits := Nat.toDigits 10 n
  String.ofList (List.replicate (width - digits.length) '0' ++ digits)

/-- The decimal text of a signed number. -/
def decimal (n : Int) : String :=
  if n < 0 then "-" ++ padded 1 n.natAbs else padded 1 n.natAbs

end CalendarQuery.Text

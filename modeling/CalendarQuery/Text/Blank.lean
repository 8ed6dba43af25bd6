/-!
# Blank characters

`Text.isBlank` is the Unicode property `White_Space`, and `Text.trim` cuts blanks off both ends.
Dates and sort expressions are trimmed in this sense; tokens are separated by a smaller set
(`Token.isSeparator`).
-/

namespace CalendarQuery.Text

/-- The first and last code point of each range of the property `White_Space`, in order. -/
def blankRanges : List (Nat × Nat) :=
  [(0x09, 0x0D), (0x20, 0x20), (0x85, 0x85), (0xA0, 0xA0), (0x1680, 0x1680), (0x2000, 0x200A),
    (0x2028, 0x2029), (0x202F, 0x202F), (0x205F, 0x205F), (0x3000, 0x3000)]

/-- A character with the property `White_Space`. -/
def isBlank (c : Char) : Bool := blankRanges.any fun (lo, hi) => lo ≤ c.toNat && c.toNat ≤ hi

/-- The text without the blanks at its start. -/
def trimStart (cs : List Char) : List Char := cs.dropWhile isBlank

/-- The text without the blanks at its start and end. -/
def trim (cs : List Char) : List Char := ((trimStart cs).reverse.dropWhile isBlank).reverse

end CalendarQuery.Text

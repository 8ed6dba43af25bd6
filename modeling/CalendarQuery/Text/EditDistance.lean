/-!
# Edit distance

`Text.editDistance` is the least number of characters to insert, delete or replace that turns one
text into another, computed row by row.
-/

namespace CalendarQuery.Text

/-- The next row of the distance table: `previous` holds the distances from what was read so far
to every prefix of `target`, `c` is the next character read, `left` the entry to the left of the
first one to compute. -/
def nextRow (c : Char) : (target : List Char) → (previous : List Nat) → (left : Nat) → List Nat
  | t :: target, diagonal :: above :: previous, left =>
    let here := min (min (above + 1) (left + 1)) (diagonal + if c = t then 0 else 1)
    here :: nextRow c target (above :: previous) here
  | _, _, _ => []

/-- The distance of two texts, given as characters. -/
def editDistance (source target : List Char) : Nat :=
  let start := List.range (target.length + 1)
  let last := source.foldl (fun (row : List Nat) c =>
    let first := row.headD 0 + 1
    first :: nextRow c target row first) start
  last.getLastD 0

end CalendarQuery.Text

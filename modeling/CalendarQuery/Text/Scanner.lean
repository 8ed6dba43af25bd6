/-!
# Scanners

A scanner reads something from the start of a text and leaves the rest, or fails and reads nothing;
`p <|> q` tries `q` where `p` started.

* `Scanner.satisfy`, `Scanner.char`, `Scanner.word`, `Scanner.span`: characters and runs of them.
* `Scanner.many`: as often as possible. It ends because each round leaves less.
* `Scanner.separated`, `Scanner.times`, `Scanner.maybe`, `Scanner.ahead`, `Scanner.consumed`: the
  other combinations.
* `Scanner.whole`: what a scanner reads from a text that it reads to the end.
-/

namespace CalendarQuery

/-- Readers of texts from the left. -/
abbrev Scanner := StateT (List Char) Option

namespace Scanner

variable {α β : Type}

/-- A character that satisfies a test. -/
def satisfy (test : Char → Bool) : Scanner Char
  | c :: cs => if test c then some (c, cs) else none
  | [] => none

/-- The given character. -/
def char (c : Char) : Scanner Unit := do let _ ← satisfy (· == c)

/-- The given characters. -/
def word : List Char → Scanner Unit
  | [] => pure ()
  | c :: cs => do char c; word cs

/-- The longest run of characters that satisfy a test, which may be empty. -/
def span (test : Char → Bool) : Scanner (List Char) := fun cs =>
  some (cs.takeWhile test, cs.dropWhile test)

/-- The longest run of characters that satisfy a test, one at least. -/
def span1 (test : Char → Bool) : Scanner (List Char) := do
  let first ← satisfy test
  let others ← span test
  return first :: others

/-- The end of the text. -/
def atEnd : Scanner Unit
  | [] => some ((), [])
  | _ => none

/-- Succeeds where `p` does, and reads nothing. -/
def ahead (p : Scanner α) : Scanner Unit := fun cs => (p cs).map fun _ => ((), cs)

/-- What `p` reads, if it reads something. -/
def maybe (p : Scanner α) : Scanner (Option α) := (some <$> p) <|> pure none

/-- Exactly `n` times. -/
def times (p : Scanner α) : Nat → Scanner (List α)
  | 0 => pure []
  | n + 1 => do
    let a ← p
    let others ← times p n
    return a :: others

/-- What `p` reads, again and again while it leaves less. -/
def manyFrom (p : Scanner α) (cs : List Char) : List α × List Char :=
  match p cs with
  | none => ([], cs)
  | some (a, rest) =>
    if _h : rest.length < cs.length then
      let (others, last) := manyFrom p rest
      (a :: others, last)
    else ([], cs)
termination_by cs.length

/-- As often as possible. -/
def many (p : Scanner α) : Scanner (List α) := fun cs => some (manyFrom p cs)

/-- One or more, with a separator between them. -/
def separated (p : Scanner α) (separator : Scanner β) : Scanner (List α) := do
  let first ← p
  let others ← many (separator *> p)
  return first :: others

/-- The characters that `p` reads. -/
def consumed (p : Scanner α) : Scanner (List Char) := fun cs =>
  (p cs).map fun (_, rest) => (cs.take (cs.length - rest.length), rest)

/-- What `p` reads if it reads the text to the end. -/
def whole (p : Scanner α) (cs : List Char) : Option α :=
  match p cs with
  | some (a, []) => some a
  | _ => none

end Scanner

end CalendarQuery

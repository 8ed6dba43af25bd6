import CalendarQuery.Limits
import CalendarQuery.Property.Path.Reader
import CalendarQuery.Text.Blank

/-!
# Sort expressions

A sort expression lists property paths, each with an optional direction: `dtstart:asc, summary`.

* `SortKey.text`: the written form of one entry.
* `parseSort`: the keys of a sort expression, or why it has none.

A text of blanks alone, in the sense of `Text.isBlank`, is an empty list; this is decided before
any token is read.
-/

namespace CalendarQuery

open Reader

/-- A key to sort by. -/
structure SortKey where
  path : PropertyPath
  ascending : Bool
  deriving DecidableEq, Repr

namespace SortKey

/-- The written direction. -/
def direction (k : SortKey) : String := if k.ascending then "asc" else "desc"

/-- The written form. -/
def text (k : SortKey) : String := k.path.text ++ ":" ++ k.direction

/-- A direction after its colon. -/
def readDirection : Reader Bool := do
  let lexeme ← next
  if lexeme.token.isKeyword "asc" then return true
  else if lexeme.token.isKeyword "desc" then return false
  else fail (.unexpected lexeme .direction)

/-- A key; without a direction the given one holds. -/
def read (ascending : Bool) : Reader SortKey := do
  let first ← next
  let path ← PropertyPath.read first
  if ← accept ':' then return ⟨path, ← readDirection⟩ else return ⟨path, ascending⟩

/-- A comma and the key after it, or the end of the expression. -/
def readFurther (ascending : Bool) : Reader (Option SortKey) := do
  let separator ← next
  match separator.token with
  | .symbol ',' => return some (← read ascending)
  | .eof => return none
  | _ => fail (.unexpected separator .sortSeparator)

theorem keeps_readDirection : Keeps readDirection :=
  Keeps.next.bind fun _ => by
    split
    · exact Keeps.pure _
    · split
      · exact Keeps.pure _
      · exact Keeps.fail _

theorem keeps_read (ascending : Bool) : Keeps (read ascending) :=
  Keeps.next.bind fun _ => (PropertyPath.keeps_read _).bind fun _ => (Keeps.accept ':').bind
    fun _ => by
      split
      · exact keeps_readDirection.bind fun _ => Keeps.pure _
      · exact Keeps.pure _

theorem takes_readFurther (ascending : Bool) : TakesSome (readFurther ascending) := by
  refine TakesSome.next_bind (fun x => ?_) fun x _ _ _ he => ?_
  · split
    · exact (keeps_read ascending).bind fun _ => Keeps.pure _
    · exact Keeps.pure _
    · exact Keeps.fail _
  · rw [he]
    intro h
    obtain ⟨h, -⟩ := pure_eq_ok.mp h
    simp at h

/-- All keys of an expression that is not blank. -/
def readAll (ascending : Bool) : Reader (List SortKey) := do
  let first ← read ascending
  let others ← many (readFurther ascending) (takes_readFurther ascending)
  return first :: others

end SortKey

/-- The keys of a sort expression. -/
def parseSort (limits : Limits) (text : String) : Except QueryError (List SortKey) :=
  if !limits.admits text then
    .error (.tooLong text.utf8ByteSize limits.maxExpressionLength)
  else if text.toList.all Text.isBlank then .ok []
  else (SortKey.readAll limits.defaultSortAscending (Lexer.ofString text)).map Prod.fst

end CalendarQuery

import CalendarQuery.Toml.Number
import CalendarQuery.Toml.Table

/-!
# Reading documents

* `value`: a value, in which arrays and tables lie at most so deep.
* `statement`: one line of a document.
* `Value.ofDocument?`: the table of a document, if it is one.

An array may go over several lines, with comments and with a comma at its end; a table between
braces stands on one line and has no comma at its end.
-/

namespace CalendarQuery.Toml

open Scanner

/-- A value without parts. -/
def simpleValue : Scanner Value :=
  ((fun cs => .text (String.ofList cs)) <$> quotedText) <|>
  (.time <$> time) <|> (.float <$> float) <|> (.integer <$> integer) <|>
  (do word ['t', 'r', 'u', 'e']; return .boolean true) <|>
  (do word ['f', 'a', 'l', 's', 'e']; return .boolean false)

/-- An array, given how its items are read. -/
def arrayOf (item : Scanner Value) : Scanner Value := do
  char '['
  let items ← maybe do
    let items ← separated (filler *> item <* filler) (char ',')
    let _ ← maybe (char ',')
    return items
  filler
  char ']'
  return .array (items.getD [])

/-- A key and its value, given how values are read. -/
def pairOf (item : Scanner Value) : Scanner (Key × Value) := do
  let key ← key
  char '='
  blanks
  let value ← item
  return (key, value)

/-- A table between braces, given how values are read. -/
def tableOf (item : Scanner Value) : Scanner Value := do
  char '\x7b'
  let pairs ← maybe (separated (pairOf item <* blanks) (char ','))
  blanks
  char '\x7d'
  let entries ← StateT.lift (Entries.assignAll (pairs.getD []))
  return .table (Entries.toValues entries)

/-- A value, in which arrays and tables lie at most `depth` deep. -/
def value : (depth : Nat) → Scanner Value
  | 0 => simpleValue
  | depth + 1 => simpleValue <|> arrayOf (value depth) <|> tableOf (value depth)

/-- How deep arrays and tables may lie in a value. -/
def maxDepth : Nat := 79

/-- A statement, with the end of its line. -/
def statement : Scanner Statement :=
  (do
    word ['[', '[']
    let key ← key
    word [']', ']']
    lineEnd
    return .element key) <|>
  (do
    char '['
    let key ← key
    char ']'
    lineEnd
    return .table key) <|>
  (do
    let (key, value) ← pairOf (value maxDepth)
    lineEnd
    return .pair key value)

/-- A line: a statement, a comment, or nothing. -/
def line : Scanner (Option Statement) :=
  (some <$> statement) <|>
  (do comment; newline <|> atEnd; return none) <|>
  (do newline; return none)

/-- A document, which may start with a byte order mark. -/
def document : Scanner (List Statement) := do
  let _ ← maybe (char '\ufeff')
  blanks
  let lines ← many (line <* blanks)
  atEnd
  return lines.filterMap id

/-- The table of a document. -/
def Value.ofDocument? (text : String) : Option Value := do
  let statements ← whole document text.toList
  let draft ← Draft.empty.addAll statements
  return .table (Entries.toValues draft.root)

end CalendarQuery.Toml

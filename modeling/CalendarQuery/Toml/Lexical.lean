import CalendarQuery.Text.Scanner
import CalendarQuery.Toml.Value

/-!
# Blanks, comments, texts and keys

The smallest parts of a document in the TOML format.

* `blanks`, `newline`, `comment`, `lineEnd`, `filler`: what separates the other parts.
* `quotedText`: a text in one of its four forms.
* `key`: names with dots between them.

Control characters other than the tabulator stand nowhere in a document, except where they end a
line: a line ends with a line feed, which a carriage return may precede.
-/

namespace CalendarQuery.Toml

open Scanner

/-- A blank or tabulator. -/
def isBlank (c : Char) : Bool := c == ' ' || c == '\t'

/-- A character that may stand within a line. -/
def isPlain (c : Char) : Bool := c == '\t' || (' ' ≤ c && c != '\x7f')

/-- A character of a name without quotes. -/
def isBare (c : Char) : Bool := c.isAlphanum || c == '_' || c == '-'

/-- A hexadecimal digit. -/
def isHexDigit (c : Char) : Bool :=
  c.isDigit || ('a' ≤ c && c ≤ 'f') || ('A' ≤ c && c ≤ 'F')

/-- The value of a hexadecimal digit. -/
def hexValue (c : Char) : Nat :=
  if c.isDigit then c.toNat - '0'.toNat else c.toLower.toNat - 'a'.toNat + 10

/-- The value of a run of digits to a base. -/
def natOfDigits (base : Nat) (cs : List Char) : Nat := cs.foldl (fun n c => base * n + hexValue c) 0

/-- Blanks within a line. -/
def blanks : Scanner Unit := do let _ ← span isBlank

/-- The end of a line before another. -/
def newline : Scanner Unit := char '\n' <|> word ['\r', '\n']

/-- A comment. -/
def comment : Scanner Unit := do
  char '#'
  let _ ← span isPlain

/-- The rest of a line after a statement: blanks, perhaps a comment, and its end. -/
def lineEnd : Scanner Unit := do
  blanks
  let _ ← maybe comment
  newline <|> atEnd

/-- Blanks, line ends and comments. -/
def filler : Scanner Unit := do
  let _ ← many ((do let _ ← span1 isBlank) <|> newline <|> comment)

/-! ## Texts -/

/-- The character of a code point that is written with `digits` hexadecimal digits. -/
def codePoint (digits : Nat) : Scanner Char := do
  let code := natOfDigits 16 (← times (satisfy isHexDigit) digits)
  if code.isValidChar then return Char.ofNat code else failure

/-- A character that is written with a backslash. -/
def escaped : Scanner Char := do
  char '\\'
  match ← satisfy fun _ => true with
  | 'b' => return '\x08'
  | 't' => return '\t'
  | 'n' => return '\n'
  | 'f' => return '\x0c'
  | 'r' => return '\r'
  | '"' => return '"'
  | '\\' => return '\\'
  | 'u' => codePoint 4
  | 'U' => codePoint 8
  | _ => failure

/-- Characters that stand for themselves in a text with escapes. -/
def standing : Scanner (List Char) := span1 fun c => isPlain c && c != '"' && c != '\\'

/-- A text between double quotes, on one line. -/
def basicText : Scanner (List Char) := do
  char '"'
  let body ← many (standing <|> List.singleton <$> escaped)
  char '"'
  return body.flatten

/-- A text between single quotes, on one line and without escapes. -/
def literalText : Scanner (List Char) := do
  char '\''
  let body ← span fun c => isPlain c && c != '\''
  char '\''
  return body

/-- So many quotes, before something. -/
def quotesBefore (quote : Char) (n : Nat) (next : Scanner Unit) : Scanner (List Char) := do
  let _ ← times (char quote) n
  ahead next
  return List.replicate n quote

/-- One or two quotes, before something. -/
def innerQuotes (quote : Char) (next : Scanner Unit) : Scanner (List Char) :=
  quotesBefore quote 2 next <|> quotesBefore quote 1 next

/-- A text between triple quotes. A line end right after the opening quotes does not count; one or
two quotes may stand in the body and right before the closing ones. -/
def tripleText (quote : Char) (part : Scanner (List Char)) : Scanner (List Char) := do
  let delimiter := word [quote, quote, quote]
  delimiter
  let _ ← maybe newline
  let body ← many (part <|> innerQuotes quote (do let _ ← satisfy (· != quote)))
  let last ← innerQuotes quote delimiter <|> pure []
  delimiter
  return body.flatten ++ last

/-- A line end in a text, which is kept as a line feed. -/
def textNewline : Scanner (List Char) := do
  newline
  return ['\n']

/-- A backslash at the end of a line, which takes away all blanks and line ends after it. -/
def continuation : Scanner (List Char) := do
  char '\\'
  blanks
  newline
  let _ ← many ((do let _ ← span1 isBlank) <|> newline)
  return []

/-- A text between triple double quotes. -/
def tripleBasicText : Scanner (List Char) :=
  tripleText '"' <|
    standing <|> continuation <|> (List.singleton <$> escaped) <|> textNewline

/-- A text between triple single quotes. -/
def tripleLiteralText : Scanner (List Char) :=
  tripleText '\'' <| (span1 fun c => isPlain c && c != '\'') <|> textNewline

/-- A text. -/
def quotedText : Scanner (List Char) :=
  tripleBasicText <|> basicText <|> tripleLiteralText <|> literalText

/-! ## Keys -/

/-- A name. -/
def name : Scanner String := String.ofList <$> (basicText <|> literalText <|> span1 isBare)

/-- The number of names that a key must not reach. -/
def maxNames : Nat := 80

/-- Names with dots between them, and blanks around each. -/
def key : Scanner Key := do
  let names ← separated (blanks *> name <* blanks) (char '.')
  if names.length < maxNames then StateT.lift (Key.ofList? names) else failure

end CalendarQuery.Toml

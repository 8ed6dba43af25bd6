import CalendarQuery.Text.Decimal

/-!
# Writing settings

Settings are written one to a line, as a name, an equals sign and a value.

* `TextForm.of`, `writeText`: a text in the plainest form that shows it without escapes.
* `writeNatural`: a number, which must fit a signed 64-bit integer.
* `pairLine`, `headerLine`: lines.
-/

namespace CalendarQuery.Toml

/-- Why settings cannot be written. -/
inductive WriteError
  /-- A number does not fit. -/
  | outOfRange
  deriving DecidableEq, Repr

/-- The wording. -/
def WriteError.message : WriteError → String
  | outOfRange => "out-of-range value for u64 type"

/-! ## Texts -/

/-- The form in which a text is written. -/
inductive TextForm
  | basic | literal | tripleBasic | tripleLiteral
  deriving DecidableEq, Repr

namespace TextForm

/-- The quotes at both ends. -/
def delimiter : TextForm → List Char
  | basic => ['"']
  | literal => ['\'']
  | tripleBasic => ['"', '"', '"']
  | tripleLiteral => ['\'', '\'', '\'']

/-- Texts of this form may go over several lines. -/
def isTriple : TextForm → Bool
  | tripleBasic | tripleLiteral => true
  | basic | literal => false

/-- Backslashes escape in texts of this form. -/
def hasEscapes : TextForm → Bool
  | basic | tripleBasic => true
  | literal | tripleLiteral => false

end TextForm

/-- A control character that only an escape can give. -/
def isControl (c : Char) : Bool := (c < ' ' && c != '\t' && c != '\n') || c == '\x7f'

/-- The length of the longest run of a character, if `run` of them stand just before. -/
def longestRun (q : Char) (run : Nat) : List Char → Nat
  | [] => run
  | c :: cs => if c = q then longestRun q (run + 1) cs else max run (longestRun q 0 cs)

/-- The form for a text: the first of basic, literal, triple basic and triple literal that shows the
text without escapes, if there is one. -/
def TextForm.of (cs : List Char) : TextForm :=
  let newline := cs.contains '\n'
  let plain := !cs.any isControl
  let plainBasic := plain && !cs.contains '\\'
  if plainBasic && !newline && !cs.contains '"' then basic
  else if plain && !newline && !cs.contains '\'' then literal
  else if plainBasic && longestRun '"' 0 cs ≤ 2 then tripleBasic
  else if plain && longestRun '\'' 0 cs ≤ 2 then tripleLiteral
  else if newline then tripleBasic
  else basic

/-- A hexadecimal digit in upper case. -/
def upperHexDigit (n : Nat) : Char := if n < 10 then Char.ofNat (48 + n) else Char.ofNat (55 + n)

/-- A character other than a double quote, in a form with escapes. Line ends stay in texts that go
over several lines. -/
def escapeChar (triple : Bool) (c : Char) : List Char :=
  match c with
  | '\x08' => ['\\', 'b']
  | '\t' => ['\\', 't']
  | '\n' => if triple then ['\n'] else ['\\', 'n']
  | '\x0c' => ['\\', 'f']
  | '\r' => ['\\', 'r']
  | '\\' => ['\\', '\\']
  | c =>
    if isControl c then
      ['\\', 'u', '0', '0', upperHexDigit (c.toNat / 16), upperHexDigit (c.toNat % 16)]
    else [c]

/-- The body of a text in a form with escapes. Two double quotes in a row may stay between triple
quotes; `run` of them stand just before. -/
def escape (triple : Bool) (run : Nat) : List Char → List Char
  | [] => []
  | c :: cs =>
    if c = '"' then
      if triple && run < 2 then '"' :: escape triple (run + 1) cs
      else '\\' :: '"' :: escape triple 0 cs
    else escapeChar triple c ++ escape triple 0 cs

/-- A text in a form. A line end goes before a text of several lines. -/
def TextForm.write (form : TextForm) (cs : List Char) : List Char :=
  form.delimiter ++ (if form.isTriple && cs.contains '\n' then ['\n'] else []) ++
    (if form.hasEscapes then escape form.isTriple 0 cs else cs) ++ form.delimiter

/-- A text. -/
def writeText (s : String) : String := String.ofList ((TextForm.of s.toList).write s.toList)

/-! ## Settings -/

/-- A truth value. -/
def writeBoolean (b : Bool) : String := if b then "true" else "false"

/-- A number. -/
def writeNatural (n : Nat) : Except WriteError String :=
  if (n : Int) ≤ Int64.maxValue.toInt then .ok (Text.padded 1 n) else .error .outOfRange

/-- A setting. -/
def pairLine (name value : String) : String := name ++ " = " ++ value ++ "\n"

/-- The header of a table. -/
def headerLine (name : String) : String := "[" ++ name ++ "]\n"

end CalendarQuery.Toml

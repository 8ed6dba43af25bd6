import CalendarQuery.Text.Ascii
import CalendarQuery.Text.Decimal

/-!
# Tokens

The words of the expression language: words, quoted texts, numbers, single symbols, and the end.

* `Token.isKeyword`, `Token.isSymbol`: tests for a given word or symbol.
* `Token.describe`: how a message names a token.
* `Token.isSeparator`, `Token.isSymbolChar`, `Token.isQuote`, `Token.isWordChar`: what the
  characters of an expression belong to; each character belongs to exactly one class.
-/

namespace CalendarQuery

/-- A token of an expression. -/
inductive Token
  /-- A run of word characters that is not a number. -/
  | word (text : String)
  /-- A quoted text, given by its value. -/
  | quoted (text : String)
  | number (value : Int64)
  | symbol (char : Char)
  /-- The end of the expression. -/
  | eof
  deriving DecidableEq, Repr

/-- A token and the byte offset at which it starts. -/
structure Lexeme where
  token : Token
  position : Nat
  deriving DecidableEq, Repr

namespace Token

/-- The characters between tokens: the space and everything before it. -/
def isSeparator (c : Char) : Bool := c ≤ ' '

/-- The characters that are tokens on their own. -/
def symbolChars : List Char :=
  ['.', ':', ';', ',', '~', '=', '!', '>', '<', '&', '|', '(', ')', '[', ']']

/-- A character that is a token on its own. -/
def isSymbolChar (c : Char) : Bool := symbolChars.contains c

/-- A character that opens a quoted text. -/
def isQuote (c : Char) : Bool := c == '"' || c == '\''

/-- A character of a word or number. -/
def isWordChar (c : Char) : Bool := !isSeparator c && !isSymbolChar c && !isQuote c

/-- The token is the given symbol. -/
def isSymbol (t : Token) (c : Char) : Bool := t == symbol c

/-- The token is the given word, letter case ignored. -/
def isKeyword (t : Token) (keyword : String) : Bool :=
  match t with
  | word w => Text.sameName w keyword
  | _ => false

/-- The token as messages name it. -/
def describe : Token → String
  | word w => "word '" ++ w ++ "'"
  | quoted s => "string \"" ++ s ++ "\""
  | number n => "number " ++ Text.decimal n.toInt
  | symbol c => "'" ++ c.toString ++ "'"
  | eof => "end of expression"

/-- A maximal run of word characters as a token: a number if it spells one. -/
def ofWord (cs : List Char) : Token :=
  match Text.int64? cs with
  | some n => number n
  | none => word (String.ofList cs)

theorem ofWord_ne_eof (cs : List Char) : ofWord cs ≠ eof := by
  unfold ofWord; split <;> simp

end Token

end CalendarQuery

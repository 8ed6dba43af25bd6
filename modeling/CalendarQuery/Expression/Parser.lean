import CalendarQuery.Comparison.Reader
import CalendarQuery.Compilation
import CalendarQuery.Expression.Stacks

/-!
# Parsing expressions

An expression is a sequence of factors joined by logical operators, all of one kind; a factor is a
comparison or an expression in parentheses. Each factor is combined with what is before it as soon
as it is complete.

* `Parser.term`: the factors of one level.
* `Parser.factor`: one factor.
* `parseExpression`: a whole expression.

Comparisons are compiled as they are met, by a given function, so the first cause of failure is the
first one in the text. Every factor takes a lexeme, and so the parser ends.
-/

namespace CalendarQuery

/-- The greatest number of parentheses around a comparison. -/
def maxNesting : Nat := 64

namespace Token

/-- The logical operator that a token stands for. -/
def logicalOp? (t : Token) : Option LogicalOp :=
  if t.isSymbol '&' || t.isKeyword "and" then some .and
  else if t.isSymbol '|' || t.isKeyword "or" then some .or
  else none

end Token

/-- The state of the parser. -/
structure Parser where
  lexer : Lexer
  stack : Stacks

namespace Parser

/-- A state in which less is left to read than in `p`. -/
abbrev After (p : Parser) : Type := { q : Parser // q.lexer.size < p.lexer.size }

variable (compile : Comparison → Compilation Filter)

/-- The comparison that starts with the next lexeme, compiled and combined with what waits. -/
def comparison (p : Parser) (first : Lexeme) (l : Lexer) (h : p.lexer.next = .ok (first, l)) :
    Compilation p.After :=
  match hr : Comparison.read first l with
  | .error cause => throw cause
  | .ok (comparison, l') => do
    let filter ← compile comparison
    let stack ← Compilation.ofExcept (p.stack.push filter).foldPending
    return ⟨⟨l', stack⟩, Nat.lt_of_le_of_lt (Comparison.keeps_read first _ _ _ hr)
      (Lexer.size_next_lt h (Comparison.token_of_read hr))⟩

/-- The state after a closing parenthesis. -/
def close (p : Parser) : Compilation p.After :=
  match h : p.lexer.next with
  | .error cause => throw cause
  | .ok (closing, l) =>
    match ht : closing.token with
    | .symbol ')' => do
      let stack ← Compilation.ofExcept p.stack.closeLevel
      let stack ← Compilation.ofExcept stack.foldPending
      return ⟨⟨l, stack⟩, Lexer.size_next_lt h (by simp [ht])⟩
    | .eof => throw .unbalancedParentheses
    | t => throw (.unexpectedToken (.token t) .operatorOrClosing closing.position)

mutual

/-- The factors of one level and the operators between them; `nesting` parentheses are open. -/
def term (nesting : Nat) (p : Parser) : Compilation p.After := do
  let ⟨q, hq⟩ ← factor nesting p
  match hn : q.lexer.next with
  | .error cause => throw cause
  | .ok (lexeme, l) =>
    match lexeme.token.logicalOp? with
    | some op =>
      let stack ← Compilation.ofExcept (q.stack.choose op)
      let ⟨r, hr⟩ ← term nesting ⟨l, stack.pend op⟩
      return ⟨r, Nat.lt_trans hr (Nat.lt_of_le_of_lt (Lexer.size_next_le hn) hq)⟩
    | none =>
      let stack ← Compilation.ofExcept q.stack.foldPending
      return ⟨⟨l.pushBack lexeme, stack⟩, Nat.lt_of_le_of_lt (Lexer.size_pushBack_next hn) hq⟩
termination_by (p.lexer.size, 1)
decreasing_by
  · exact Prod.Lex.right _ (by decide)
  · exact Prod.Lex.left _ _ (Nat.lt_of_le_of_lt (Lexer.size_next_le hn) hq)

/-- A comparison, or an expression in parentheses. -/
def factor (nesting : Nat) (p : Parser) : Compilation p.After :=
  match hn : p.lexer.next with
  | .error cause => throw cause
  | .ok (first, l) =>
    if hp : first.token = .symbol '(' then
      if maxNesting ≤ nesting then throw (.nestingTooDeep maxNesting)
      else do
        have hl : l.size < p.lexer.size := Lexer.size_next_lt hn (by simp [hp])
        let ⟨q, hq⟩ ← term (nesting + 1) ⟨l, p.stack.openLevel⟩
        let ⟨r, hr⟩ ← close q
        return ⟨r, Nat.lt_trans hr (Nat.lt_trans hq hl)⟩
    else comparison compile p first l hn
termination_by (p.lexer.size, 0)
decreasing_by exact Prod.Lex.left _ _ hl

end

end Parser

/-- A whole expression, each comparison compiled by `compile`. -/
def parseExpression (compile : Comparison → Compilation Filter) (text : String) :
    Compilation Filter := do
  let ⟨p, _⟩ ← Parser.term compile 0 ⟨Lexer.ofString text, Stacks.start⟩
  let (trailing, _) ← Compilation.ofExcept p.lexer.next
  match trailing.token with
  | .eof => Compilation.ofExcept p.stack.finish
  | .symbol ')' => throw .unbalancedParentheses
  | t => throw (.unexpectedToken (.token t) .operatorOrEnd trailing.position)

end CalendarQuery

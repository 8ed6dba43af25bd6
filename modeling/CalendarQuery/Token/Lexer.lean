import CalendarQuery.Error
import CalendarQuery.Text.Quoted

/-!
# The lexer

A lexer stands at a place of an expression and gives one lexeme after the other; one lexeme may be
held back, after a look ahead or a return.

* `Lexer.next`, `Lexer.peek`, `Lexer.pushBack`, `Lexer.position`: the operations.
* `Lexer.size`: how much is left. `size_next_le` and `size_next_lt` say that the operations do not
  add to it and that a lexeme takes something from it, so that readers end.
* `Lexer.lexemes`: all lexemes that are left, and where lexing stops.
* `Lexer.run`: the answers to a sequence of calls.
-/

namespace CalendarQuery

/-- A place in an expression. -/
structure Lexer where
  /-- The characters that no lexeme has covered. -/
  rest : List Char
  /-- The byte offset of `rest`. -/
  offset : Nat
  /-- A lexeme before `rest` that is still to be delivered. -/
  held : Option Lexeme
  deriving DecidableEq, Repr

namespace Lexer

/-- The number of bytes of the characters. -/
def width (cs : List Char) : Nat := cs.foldr (fun c n => c.utf8Size + n) 0

/-- The start of an expression. -/
def ofString (text : String) : Lexer := ⟨text.toList, 0, none⟩

/-- The end of the expression. -/
def atEnd (l : Lexer) : Lexer := ⟨[], l.offset + width l.rest, none⟩

/-- Reads the next lexeme from the characters that are left. An unterminated text is an error, and
nothing is left after it. -/
def scan (l : Lexer) : Except QueryError (Lexeme × Lexer) :=
  let blanks := l.rest.takeWhile Token.isSeparator
  let start := l.offset + width blanks
  match l.rest.dropWhile Token.isSeparator with
  | [] => .ok (⟨.eof, start⟩, ⟨[], start, none⟩)
  | c :: cs =>
    if Token.isSymbolChar c then .ok (⟨.symbol c, start⟩, ⟨cs, start + c.utf8Size, none⟩)
    else if Token.isQuote c then
      match Text.splitQuoted c cs with
      | none => .error (.unterminatedText start)
      | some (body, rest) =>
        .ok (⟨.quoted (String.ofList (Text.unescape body)), start⟩,
          ⟨rest, start + c.utf8Size + width body + c.utf8Size, none⟩)
    else
      let word := c :: cs.takeWhile Token.isWordChar
      .ok (⟨Token.ofWord word, start⟩,
        ⟨cs.dropWhile Token.isWordChar, start + width word, none⟩)

/-- The next lexeme, which is then behind. -/
def next (l : Lexer) : Except QueryError (Lexeme × Lexer) :=
  match l.held with
  | some lexeme => .ok (lexeme, { l with held := none })
  | none => l.scan

/-- Returns a lexeme: it is the next one again. -/
def pushBack (l : Lexer) (lexeme : Lexeme) : Lexer := { l with held := some lexeme }

/-- The next lexeme, which stays the next one. -/
def peek (l : Lexer) : Except QueryError (Lexeme × Lexer) := do
  let (lexeme, l) ← l.next
  return (lexeme, l.pushBack lexeme)

/-- The byte offset of the held lexeme, or of the first character no lexeme has covered. -/
def position (l : Lexer) : Nat :=
  match l.held with
  | some lexeme => lexeme.position
  | none => l.offset

/-! ## What is left -/

/-- A lexeme to be delivered counts one, the end of the expression nothing. -/
def weight (lexeme : Lexeme) : Nat := if lexeme.token = .eof then 0 else 1

/-- The number of characters that are left, and one for a lexeme that is held. -/
def size (l : Lexer) : Nat :=
  l.rest.length + match l.held with
    | some lexeme => weight lexeme
    | none => 0

@[simp] theorem size_mk_none (rest : List Char) (offset : Nat) :
    size ⟨rest, offset, none⟩ = rest.length := rfl

theorem weight_eq_one {lexeme : Lexeme} (h : lexeme.token ≠ .eof) : weight lexeme = 1 := by
  simp [weight, h]

private theorem length_dropWhile_le {α : Type} (p : α → Bool) (xs : List α) :
    (xs.dropWhile p).length ≤ xs.length := (List.dropWhile_suffix p).length_le

theorem scan_spec {l l' : Lexer} {lexeme : Lexeme} (h : l.scan = .ok (lexeme, l')) :
    l'.held = none ∧ l'.rest.length + weight lexeme ≤ l.rest.length := by
  have hd := length_dropWhile_le Token.isSeparator l.rest
  unfold scan at h
  simp only at h
  split at h
  · simp only [Except.ok.injEq, Prod.mk.injEq] at h
    obtain ⟨rfl, rfl⟩ := h
    exact ⟨rfl, by simp [weight]⟩
  · rename_i c cs hcs
    rw [hcs, List.length_cons] at hd
    split at h
    · simp only [Except.ok.injEq, Prod.mk.injEq] at h
      obtain ⟨rfl, rfl⟩ := h
      exact ⟨rfl, by simp [weight]; omega⟩
    · split at h
      · split at h
        · simp at h
        · rename_i body rest hs
          simp only [Except.ok.injEq, Prod.mk.injEq] at h
          obtain ⟨rfl, rfl⟩ := h
          have := Text.length_of_splitQuoted hs
          exact ⟨rfl, by simp [weight]; omega⟩
      · simp only [Except.ok.injEq, Prod.mk.injEq] at h
        obtain ⟨rfl, rfl⟩ := h
        have hw := length_dropWhile_le Token.isWordChar cs
        refine ⟨rfl, ?_⟩
        rw [weight_eq_one (Token.ofWord_ne_eof _)]
        simp only; omega

/-- A delivered lexeme is no longer held, and the end of the expression takes nothing. -/
theorem next_spec {l l' : Lexer} {lexeme : Lexeme} (h : l.next = .ok (lexeme, l')) :
    l'.held = none ∧ l'.size + weight lexeme ≤ l.size := by
  unfold next at h
  split at h
  · rename_i x hx
    simp only [Except.ok.injEq, Prod.mk.injEq] at h
    obtain ⟨rfl, rfl⟩ := h
    simp [size, hx]
  · rename_i hx
    obtain ⟨h1, h2⟩ := scan_spec h
    exact ⟨h1, by simp only [size, h1, hx]; omega⟩

theorem size_next_le {l l' : Lexer} {lexeme : Lexeme} (h : l.next = .ok (lexeme, l')) :
    l'.size ≤ l.size := by
  have := (next_spec h).2; omega

theorem size_next_lt {l l' : Lexer} {lexeme : Lexeme} (h : l.next = .ok (lexeme, l'))
    (hne : lexeme.token ≠ .eof) : l'.size < l.size := by
  have := (next_spec h).2; rw [weight_eq_one hne] at this; omega

theorem size_pushBack {l : Lexer} (h : l.held = none) (lexeme : Lexeme) :
    (l.pushBack lexeme).size = l.size + weight lexeme := by
  simp [size, pushBack, h]

/-- Returning what was just delivered restores no more than was there. -/
theorem size_pushBack_next {l l' : Lexer} {lexeme : Lexeme} (h : l.next = .ok (lexeme, l')) :
    (l'.pushBack lexeme).size ≤ l.size := by
  obtain ⟨h1, h2⟩ := next_spec h
  rw [size_pushBack h1]; exact h2

theorem size_peek_le {l l' : Lexer} {lexeme : Lexeme} (h : l.peek = .ok (lexeme, l')) :
    l'.size ≤ l.size := by
  unfold peek at h
  cases hn : l.next with
  | error e => rw [hn] at h; simp [bind, Except.bind] at h
  | ok r =>
    obtain ⟨x, l1⟩ := r
    rw [hn] at h
    simp only [bind, Except.bind, pure, Except.pure, Except.ok.injEq, Prod.mk.injEq] at h
    obtain ⟨rfl, rfl⟩ := h
    exact size_pushBack_next hn

/-! ## All lexemes -/

/-- The lexemes that are left, without the end, and the end of the expression or the error at
which lexing stops. -/
def lexemes (l : Lexer) : List Lexeme × Except QueryError Lexeme :=
  match _h : l.next with
  | .error e => ([], .error e)
  | .ok (lexeme, l') =>
    if _hne : lexeme.token = .eof then ([], .ok lexeme)
    else
      let (later, stop) := lexemes l'
      (lexeme :: later, stop)
termination_by l.size
decreasing_by exact size_next_lt _h _hne

/-! ## Sequences of calls -/

/-- A call to a lexer. `back` returns the last lexeme that was delivered and not yet returned. -/
inductive Call
  | next | peek | back | position
  deriving DecidableEq, Repr

/-- The answer to a call. -/
inductive Answer
  | lexeme (lexeme : Lexeme)
  | returned
  | nothingToReturn
  | position (offset : Nat)
  | failed (cause : QueryError)
  deriving DecidableEq, Repr

/-- A lexer in use: `last` is the lexeme that `back` would return. -/
structure Session where
  lexer : Lexer
  last : Option Lexeme

/-- One call. After an error the lexer stands at the end of the expression. -/
def Session.step (s : Session) : Call → Answer × Session
  | .next =>
    match s.lexer.next with
    | .ok (lexeme, l) => (.lexeme lexeme, ⟨l, some lexeme⟩)
    | .error e => (.failed e, { s with lexer := s.lexer.atEnd })
  | .peek =>
    match s.lexer.peek with
    | .ok (lexeme, l) => (.lexeme lexeme, { s with lexer := l })
    | .error e => (.failed e, { s with lexer := s.lexer.atEnd })
  | .back =>
    match s.last with
    | some lexeme => (.returned, ⟨s.lexer.pushBack lexeme, none⟩)
    | none => (.nothingToReturn, s)
  | .position => (.position s.lexer.position, s)

/-- The answers to a sequence of calls. -/
def Session.answers (s : Session) : List Call → List Answer
  | [] => []
  | call :: calls => (s.step call).1 :: (s.step call).2.answers calls

/-- The answers of a fresh lexer. -/
def run (text : String) (calls : List Call) : List Answer :=
  Session.answers ⟨ofString text, none⟩ calls

end Lexer

end CalendarQuery

import CalendarQuery.Proofs.Token.Scan

/-!
# Token streams

What a lexer has still to deliver, without the places at which it stands: the tokens, and whether
lexing comes to the end of the expression.

* `Lexer.Gives`: a lexer delivers a stream. `Gives.next`, `Gives.of_next`, `Gives.peek` and
  `Gives.of_peek` say what the operations of a lexer do to the stream; nothing about a lexer but
  its stream decides whether they succeed.
* `TokenStream.ofChars`: the stream of a text. It has one equation for each kind of token, each a
  case of `ofChars_covers`: `ofChars_symbol`, `ofChars_quoted`, `ofChars_word`.
-/

namespace CalendarQuery

/-- The tokens before the end of an expression, and whether lexing reaches that end. -/
structure TokenStream where
  tokens : List Token
  complete : Bool
  deriving DecidableEq, Repr

namespace TokenStream

/-- Nothing is left but the end of the expression. -/
def done : TokenStream := ⟨[], true⟩

/-- A token before the others. -/
def cons (t : Token) (s : TokenStream) : TokenStream := ⟨t :: s.tokens, s.complete⟩

/-- Several tokens before the others. -/
def append (ts : List Token) (s : TokenStream) : TokenStream := ⟨ts ++ s.tokens, s.complete⟩

/-- The token that is next. -/
def head (s : TokenStream) : Token := s.tokens.headD .eof

/-- The stream behind the token that is next; the end stays where it is. -/
def tail (s : TokenStream) : TokenStream := ⟨s.tokens.tail, s.complete⟩

/-- There is a token to deliver, which may be the end. -/
def Readable (s : TokenStream) : Prop := s.tokens = [] → s.complete = true

@[simp] theorem head_done : done.head = .eof := rfl
@[simp] theorem tail_done : done.tail = done := rfl
@[simp] theorem head_cons (t : Token) (s : TokenStream) : (s.cons t).head = t := rfl
@[simp] theorem tail_cons (t : Token) (s : TokenStream) : (s.cons t).tail = s := rfl
@[simp] theorem append_nil (s : TokenStream) : s.append [] = s := rfl

@[simp] theorem append_cons (t : Token) (ts : List Token) (s : TokenStream) :
    s.append (t :: ts) = (s.append ts).cons t := rfl

@[simp] theorem append_append (ts us : List Token) (s : TokenStream) :
    s.append (ts ++ us) = (s.append us).append ts := by
  simp [append]

theorem readable_done : done.Readable := fun _ => rfl

theorem readable_cons (t : Token) (s : TokenStream) : (s.cons t).Readable := by
  simp [Readable, cons]

/-- A stream whose next token is not the end is that token and what is behind it. -/
theorem eq_cons_of_head {s : TokenStream} {t : Token} (h : s.head = t) (ht : t ≠ .eof) :
    s = s.tail.cons t := by
  obtain ⟨_ | ⟨u, ts⟩, c⟩ := s
  · exact absurd h.symm ht
  · simp only [head, List.headD_cons] at h; subst h; rfl

end TokenStream

namespace Lexer

/-- What the lexer has still to deliver. -/
def stream (l : Lexer) : TokenStream := ⟨l.lexemes.1.map Lexeme.token, l.lexemes.2.isOk⟩

theorem lexemes_of_error {l : Lexer} {e : QueryError} (h : l.next = .error e) :
    l.lexemes = ([], .error e) := by
  rw [lexemes]
  split
  · rename_i hn; rw [h] at hn; cases hn; rfl
  · rename_i hn; rw [h] at hn; cases hn

theorem lexemes_of_eof {l l' : Lexer} {x : Lexeme} (h : l.next = .ok (x, l'))
    (hx : x.token = .eof) : l.lexemes = ([], .ok x) := by
  rw [lexemes]
  split
  · rename_i hn; rw [h] at hn; cases hn
  · rename_i hn
    rw [h] at hn
    cases hn
    rw [dif_pos hx]

theorem lexemes_of_next {l l' : Lexer} {x : Lexeme} (h : l.next = .ok (x, l'))
    (hx : x.token ≠ .eof) : l.lexemes = (x :: l'.lexemes.1, l'.lexemes.2) := by
  rw [lexemes]
  split
  · rename_i hn; rw [h] at hn; cases hn
  · rename_i hn
    rw [h] at hn
    cases hn
    rw [dif_neg hx]

/-- The first of all lexemes is the next one. -/
theorem next_of_lexemes {l : Lexer} {x : Lexeme} {xs : List Lexeme} (h : l.lexemes.1 = x :: xs) :
    ∃ l', l.next = .ok (x, l') ∧ l'.lexemes.1 = xs := by
  rcases hn : l.next with e | ⟨y, l'⟩
  · rw [lexemes_of_error hn] at h
    cases h
  · by_cases hy : y.token = .eof
    · rw [lexemes_of_eof hn hy] at h
      cases h
    · rw [lexemes_of_next hn hy] at h
      cases h
      exact ⟨l', rfl, rfl⟩

/-- The next lexeme and what is behind it decide about all lexemes. -/
theorem lexemes_congr {l l' : Lexer} (h : l.next = l'.next) : l.lexemes = l'.lexemes := by
  rcases hn : l'.next with e | ⟨x, l₁⟩
  · rw [lexemes_of_error (h.trans hn), lexemes_of_error hn]
  · by_cases hx : x.token = .eof
    · rw [lexemes_of_eof (h.trans hn) hx, lexemes_of_eof hn hx]
    · rw [lexemes_of_next (h.trans hn) hx, lexemes_of_next hn hx]

theorem stream_of_error {l : Lexer} {e : QueryError} (h : l.next = .error e) :
    l.stream = ⟨[], false⟩ := by
  rw [stream, lexemes_of_error h]
  rfl

theorem stream_of_eof {l l' : Lexer} {x : Lexeme} (h : l.next = .ok (x, l'))
    (hx : x.token = .eof) : l.stream = .done := by
  rw [stream, lexemes_of_eof h hx]
  rfl

theorem stream_of_next {l l' : Lexer} {x : Lexeme} (h : l.next = .ok (x, l'))
    (hx : x.token ≠ .eof) : l.stream = l'.stream.cons x.token := by
  rw [stream, lexemes_of_next h hx]
  rfl

/-- The lexer delivers the stream; if it holds the end of the expression, nothing follows that. -/
structure Gives (l : Lexer) (s : TokenStream) : Prop where
  stream_eq : l.stream = s
  rest_eq_nil : ∀ x, l.held = some x → x.token = .eof → l.rest = []

theorem gives_of_held_none {l : Lexer} (h : l.held = none) : l.Gives l.stream :=
  ⟨rfl, fun x hx => by simp [h] at hx⟩

theorem Gives.unique {l : Lexer} {s s' : TokenStream} (h : l.Gives s) (h' : l.Gives s') :
    s = s' := h.stream_eq.symm.trans h'.stream_eq

theorem next_mk_nil (o : Nat) : next ⟨[], o, none⟩ = .ok (⟨.eof, o⟩, ⟨[], o, none⟩) := rfl

/-- Only the end of the text is read as the end of the expression. -/
theorem rest_of_scan_eof {l l' : Lexer} {x : Lexeme} (h : l.scan = .ok (x, l'))
    (hx : x.token = .eof) : l'.rest = [] := by
  unfold scan at h
  simp only at h
  split at h
  · cases h; rfl
  · rename_i c cs _
    split at h
    · cases h; simp at hx
    · split at h
      · split at h
        · cases h
        · cases h; simp at hx
      · cases h; exact absurd hx (Token.ofWord_ne_eof _)

theorem Gives.rest_of_next {l l' : Lexer} {s : TokenStream} {x : Lexeme} (h : l.Gives s)
    (hn : l.next = .ok (x, l')) (hx : x.token = .eof) : l'.rest = [] := by
  unfold next at hn
  split at hn
  · rename_i y hy
    obtain ⟨rfl, rfl⟩ := Prod.mk.inj (Except.ok.inj hn)
    exact h.rest_eq_nil _ hy hx
  · exact rest_of_scan_eof hn hx

theorem stream_of_rest_nil {l : Lexer} (hr : l.rest = []) (hh : l.held = none) :
    l.stream = .done := by
  obtain ⟨rest, o, held⟩ := l
  simp only at hr hh
  subst hr hh
  exact stream_of_eof (next_mk_nil o) rfl

/-- A lexer that delivers a lexeme delivers the head of its stream and goes on with the tail. -/
theorem Gives.of_next {l l' : Lexer} {s : TokenStream} {x : Lexeme} (h : l.Gives s)
    (hn : l.next = .ok (x, l')) : s.Readable ∧ x.token = s.head ∧ l'.Gives s.tail := by
  have hheld := (next_spec hn).1
  by_cases hx : x.token = .eof
  · have hs := (stream_of_eof hn hx).symm.trans h.stream_eq
    subst hs
    refine ⟨TokenStream.readable_done, hx, ?_⟩
    have := stream_of_rest_nil (h.rest_of_next hn hx) hheld
    rw [TokenStream.tail_done, ← this]
    exact gives_of_held_none hheld
  · have hs := (stream_of_next hn hx).symm.trans h.stream_eq
    subst hs
    exact ⟨TokenStream.readable_cons _ _, rfl, gives_of_held_none hheld⟩

/-- A lexer with a token to deliver delivers it. -/
theorem Gives.next {l : Lexer} {s : TokenStream} (h : l.Gives s) (hr : s.Readable) :
    ∃ x l', l.next = .ok (x, l') ∧ x.token = s.head ∧ l'.Gives s.tail := by
  cases hn : l.next with
  | error e =>
    have hs := (stream_of_error hn).symm.trans h.stream_eq
    subst hs
    exact absurd (hr rfl) (by simp)
  | ok r => exact ⟨r.1, r.2, rfl, (h.of_next hn).2⟩

theorem next_pushBack (l : Lexer) (x : Lexeme) :
    (l.pushBack x).next = .ok (x, { l with held := none }) := rfl

/-- A lexeme that is returned right away changes nothing. -/
theorem lexemes_pushBack {l l' : Lexer} {x : Lexeme} (hn : l.next = .ok (x, l')) :
    (l'.pushBack x).lexemes = l.lexemes := by
  have hl : ({ l' with held := none } : Lexer) = l' := by rw [← (next_spec hn).1]
  exact lexemes_congr (by rw [next_pushBack, hl, hn])

/-- A returned lexeme is delivered again. -/
theorem Gives.pushBack {l l' : Lexer} {s : TokenStream} {x : Lexeme} (h : l.Gives s)
    (hn : l.next = .ok (x, l')) : (l'.pushBack x).Gives s := by
  refine ⟨?_, fun y hy hye => ?_⟩
  · rw [stream, lexemes_pushBack hn]
    exact h.stream_eq
  · obtain rfl := Option.some.inj hy
    have hr : l'.rest = [] := h.rest_of_next hn hye
    exact hr

theorem peek_eq_ok {l l' : Lexer} {x : Lexeme} (h : l.peek = .ok (x, l')) :
    ∃ l₁, l.next = .ok (x, l₁) ∧ l' = l₁.pushBack x := by
  unfold peek at h
  cases hn : l.next with
  | error e => rw [hn] at h; cases h
  | ok r => rw [hn] at h; cases h; exact ⟨_, rfl, rfl⟩

theorem Gives.of_peek {l l' : Lexer} {s : TokenStream} {x : Lexeme} (h : l.Gives s)
    (hp : l.peek = .ok (x, l')) : s.Readable ∧ x.token = s.head ∧ l'.Gives s := by
  obtain ⟨l₁, hn, rfl⟩ := peek_eq_ok hp
  obtain ⟨hr, hx, -⟩ := h.of_next hn
  exact ⟨hr, hx, h.pushBack hn⟩

theorem Gives.peek {l : Lexer} {s : TokenStream} (h : l.Gives s) (hr : s.Readable) :
    ∃ x l', l.peek = .ok (x, l') ∧ x.token = s.head ∧ l'.Gives s := by
  obtain ⟨x, l', hn, hx, -⟩ := h.next hr
  exact ⟨x, l'.pushBack x, by simp [Lexer.peek, hn, bind, Except.bind, pure, Except.pure], hx,
    h.pushBack hn⟩

/-! ## The place does not matter -/

/-- Two outcomes of a scan with the same token and the same characters left. -/
inductive SameScan : Except QueryError (Lexeme × Lexer) → Except QueryError (Lexeme × Lexer) → Prop
  | failed (e e' : QueryError) : SameScan (.error e) (.error e')
  | lexeme (t : Token) (p p' o o' : Nat) (rest : List Char) :
    SameScan (.ok (⟨t, p⟩, ⟨rest, o, none⟩)) (.ok (⟨t, p'⟩, ⟨rest, o', none⟩))

theorem sameScan (cs : List Char) (o o' : Nat) :
    SameScan (next ⟨cs, o, none⟩) (next ⟨cs, o', none⟩) := by
  simp only [next, scan]
  split
  · exact .lexeme ..
  · split
    · exact .lexeme ..
    · split
      · split
        · exact .failed ..
        · exact .lexeme ..
      · exact .lexeme ..

theorem stream_offset (cs : List Char) (o o' : Nat) :
    stream ⟨cs, o, none⟩ = stream ⟨cs, o', none⟩ := by
  induction hn : cs.length using Nat.strongRecOn generalizing cs o o' with
  | ind n ih =>
    subst hn
    have hs := sameScan cs o o'
    generalize h : next ⟨cs, o, none⟩ = r at hs
    generalize h' : next ⟨cs, o', none⟩ = r' at hs
    cases hs with
    | failed e e' => rw [stream_of_error h, stream_of_error h']
    | lexeme t p p' q q' rest =>
      by_cases ht : t = .eof
      · rw [stream_of_eof h ht, stream_of_eof h' ht]
      · rw [stream_of_next h ht, stream_of_next h' ht]
        have hlt := size_next_lt h ht
        simp only [size_mk_none] at hlt
        rw [ih rest.length hlt rest q q' rfl]

end Lexer

namespace TokenStream

open Lexer

/-- Some lexer delivers the stream. -/
def Given (s : TokenStream) : Prop := ∃ l : Lexer, l.Gives s

theorem Given.of_cons {t : Token} {s : TokenStream} (h : (s.cons t).Given) : s.Given := by
  obtain ⟨l, hl⟩ := h
  obtain ⟨_, l', _, _, hl'⟩ := hl.next (readable_cons t s)
  exact ⟨l', hl'⟩

theorem Given.of_append {ts : List Token} {s : TokenStream} (h : (s.append ts).Given) :
    s.Given := by
  induction ts with
  | nil => exact h
  | cons t ts ih => exact ih (Given.of_cons (t := t) h)

/-- A stream that comes to its end has nothing behind it. -/
theorem Given.eq_done {s : TokenStream} (h : s.Given) (hs : s.Readable) (hend : s.head = .eof) :
    s = done := by
  obtain ⟨l, hl⟩ := h
  obtain ⟨x, l', hn, hx, -⟩ := hl.next hs
  exact hl.stream_eq.symm.trans (stream_of_eof hn (hx.trans hend))

/-- The stream of a text. -/
def ofChars (cs : List Char) : TokenStream := Lexer.stream ⟨cs, 0, none⟩

/-- The stream of an expression. -/
def ofString (text : String) : TokenStream := ofChars text.toList

theorem gives_ofString (text : String) : (Lexer.ofString text).Gives (ofString text) :=
  gives_of_held_none rfl

theorem given_ofString (text : String) : (ofString text).Given := ⟨_, gives_ofString text⟩

theorem stream_eq_ofChars (cs : List Char) (o : Nat) :
    Lexer.stream ⟨cs, o, none⟩ = ofChars cs := stream_offset cs o 0

theorem ofChars_nil : ofChars [] = done := stream_of_rest_nil rfl rfl

/-! ## The stream of a text, piece by piece -/

/-- A scan that delivers a token leads on to the stream of the characters it leaves. -/
theorem ofChars_of_next {cs rest : List Char} {t : Token}
    (h : ∃ p o, Lexer.next ⟨cs, 0, none⟩ = .ok (⟨t, p⟩, ⟨rest, o, none⟩)) (ht : t ≠ .eof) :
    ofChars cs = (ofChars rest).cons t := by
  obtain ⟨p, o, h⟩ := h
  rw [← stream_eq_ofChars rest o]; exact stream_of_next h ht

/-- Separators give no token. -/
theorem ofChars_blanks {blanks : List Char} (h : ∀ c ∈ blanks, Token.isSeparator c = true)
    (cs : List Char) : ofChars (blanks ++ cs) = ofChars cs := by
  rw [ofChars, stream, lexemes_congr (next_blanks h cs 0), ← stream, stream_eq_ofChars]

/-- A token stands before the tokens of what follows it, if nothing extends it. -/
theorem ofChars_covers {t : Token} {cs rest : List Char} (h : t.Covers cs)
    (hrun : t.isRun = true → Bounded rest) : ofChars (cs ++ rest) = (ofChars rest).cons t :=
  ofChars_of_next ⟨_, _, next_covers h hrun 0⟩ h.ne_eof

theorem ofChars_separator {c : Char} (hc : Token.isSeparator c = true) (cs : List Char) :
    ofChars (c :: cs) = ofChars cs := by
  have hblanks : ∀ d ∈ [c], Token.isSeparator d = true := by simpa using hc
  exact ofChars_blanks hblanks cs

theorem ofChars_symbol {c : Char} (hc : Token.isSymbolChar c = true) (cs : List Char) :
    ofChars (c :: cs) = (ofChars cs).cons (.symbol c) :=
  ofChars_covers (.symbol hc) nofun

theorem ofChars_quoted (s : String) (cs : List Char) :
    ofChars ((Text.quoted s).toList ++ cs) = (ofChars cs).cons (.quoted s) :=
  ofChars_covers (Token.covers_quoted s) nofun

/-- A run of word characters is one token if nothing extends it. -/
theorem ofChars_word {w cs : List Char} (hne : w ≠ []) (hw : ∀ c ∈ w, Token.isWordChar c = true)
    (hcs : Bounded cs) : ofChars (w ++ cs) = (ofChars cs).cons (Token.ofWord w) :=
  ofChars_covers (.run hne hw) fun _ => hcs

end TokenStream

end CalendarQuery

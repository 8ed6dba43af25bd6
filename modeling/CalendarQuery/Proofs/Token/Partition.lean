import CalendarQuery.Proofs.Token.Stream

/-!
# Lexing divides a text

The lexemes of a text with the characters that they cover: stretches of the text with nothing but
separators between them.

* `Span`: a lexeme and its characters. `Lexes`: a text in spans, and how its lexing stops.
* `lexemes_eq_iff`: the lexemes of a lexer are those of the spans of its text.
* `Divides`: what the spans of a text are, seen from the whole text.
* `lexemes_divide`: lexing comes to the end of a text with spans that divide it, or fails, and it
  fails exactly where a quote opens a text that nothing closes.
-/

namespace CalendarQuery.Lexer

open Token TokenStream

/-- A lexeme and the characters that it covers. -/
structure Span where
  lexeme : Lexeme
  chars : List Char

namespace Span

/-- The byte offset of its first character. -/
def start (s : Span) : Nat := s.lexeme.position

/-- The byte offset behind its last character. -/
def stop (s : Span) : Nat := s.start + width s.chars

end Span

/-- The characters, which start at the byte offset `o`, are those of the spans with separators
before and between them, up to their end or up to a quote that nothing closes. -/
inductive Lexes : Nat → List Char → List Span → Except QueryError Lexeme → Prop
  | done {o : Nat} {blanks : List Char} : (∀ c ∈ blanks, isSeparator c = true) →
    Lexes o blanks [] (.ok ⟨.eof, o + width blanks⟩)
  | token {o : Nat} {blanks chars rest : List Char} {t : Token} {spans : List Span}
    {stop : Except QueryError Lexeme} : (∀ c ∈ blanks, isSeparator c = true) → t.Covers chars →
    (t.isRun = true → Bounded rest) → Lexes (o + width blanks + width chars) rest spans stop →
    Lexes o (blanks ++ (chars ++ rest)) (⟨⟨t, o + width blanks⟩, chars⟩ :: spans) stop
  | unclosed {o : Nat} {blanks rest : List Char} {quote : Char} :
    (∀ c ∈ blanks, isSeparator c = true) → isQuote quote = true → Text.Unclosed quote rest →
    Lexes o (blanks ++ quote :: rest) [] (.error (.unterminatedText (o + width blanks)))

namespace Lexes

variable {o : Nat} {cs ds blanks : List Char} {spans spans' : List Span} {x : Lexeme}
  {e : QueryError} {stop : Except QueryError Lexeme}

/-- Every text is divided; the induction is on its length, which a token shortens. -/
theorem exists_lexes (cs : List Char) (o : Nat) : ∃ spans stop, Lexes o cs spans stop := by
  induction hn : cs.length using Nat.strongRecOn generalizing cs o with
  | ind n ih =>
    subst hn
    cases Token.start cs with
    | done hblanks => exact ⟨_, _, .done hblanks⟩
    | @token blanks chars rest t hblanks hcovers hrun =>
      have hpos := List.length_pos_iff.mpr hcovers.ne_nil
      obtain ⟨spans, stop, h⟩ := ih rest.length (by simp only [List.length_append]; omega) rest
        (o + width blanks + width chars) rfl
      exact ⟨_, _, .token hblanks hcovers hrun h⟩
    | unclosed hblanks hquote hclosed => exact ⟨_, _, .unclosed hblanks hquote hclosed⟩

theorem lexemes_eq (h : Lexes o cs spans stop) :
    lexemes ⟨cs, o, none⟩ = (spans.map Span.lexeme, stop) := by
  induction h with
  | @done o blanks hblanks =>
    have hn := next_blanks hblanks [] o
    rw [List.append_nil] at hn
    exact lexemes_of_eof (hn.trans (next_mk_nil _)) rfl
  | token hblanks hcovers hrun _ ih =>
    rw [lexemes_of_next ((next_blanks hblanks _ _).trans (next_covers hcovers hrun _))
      hcovers.ne_eof, ih]
    rfl
  | unclosed hblanks hquote hclosed =>
    exact lexemes_of_error ((next_blanks hblanks _ _).trans (next_unclosed hquote hclosed _))

/-- Separators before a text move its spans. -/
theorem prepend (hblanks : ∀ c ∈ blanks, isSeparator c = true)
    (h : Lexes (o + width blanks) cs spans stop) : Lexes o (blanks ++ cs) spans stop := by
  have hall : ∀ {ds : List Char}, (∀ c ∈ ds, isSeparator c = true) →
      ∀ c ∈ blanks ++ ds, isSeparator c = true := fun hds => by
    simpa [or_imp, forall_and] using ⟨hblanks, hds⟩
  cases h with
  | @done _ ds hds =>
    rw [Nat.add_assoc, ← width_append]
    exact .done (hall hds)
  | @token _ ds _ _ _ _ _ hds hcovers hrun htail =>
    rw [Nat.add_assoc o, ← width_append] at htail
    rw [← List.append_assoc, Nat.add_assoc, ← width_append]
    exact .token (hall hds) hcovers hrun htail
  | @unclosed _ ds _ _ hds hquote hclosed =>
    rw [← List.append_assoc, Nat.add_assoc, ← width_append]
    exact .unclosed (hall hds) hquote hclosed

/-- A text whose lexing comes to its end, and then another one. No word goes on from the first text
into the second: either none ends there, or none starts. -/
theorem append (h : Lexes o cs spans (.ok x))
    (hseam : (∀ c ∈ cs.getLast?, isWordChar c = false) ∨ Bounded ds)
    (h' : Lexes (o + width cs) ds spans' stop) :
    Lexes o (cs ++ ds) (spans ++ spans') stop := by
  generalize hend : (Except.ok x : Except QueryError Lexeme) = e at h
  induction h with
  | done hblanks => exact h'.prepend hblanks
  | @token o blanks chars rest t spans stop hblanks hcovers hrun _ ih =>
    have hrest : (∀ c ∈ rest.getLast?, isWordChar c = false) ∨ Bounded ds :=
      hseam.imp_left fun hlast c hc => hlast c (by simp_all [List.getLast?_append])
    rw [List.append_assoc, List.append_assoc]
    refine .token hblanks hcovers (fun ht => ?_) (ih hrest ?_ hend)
    · cases rest with
      | nil =>
        -- The seam is right behind a word.
        refine hseam.resolve_left fun hlast => ?_
        have hnot : t.isRun = false :=
          hcovers.isRun_eq_false_iff.mpr fun c hc => hlast c (by simp_all [List.getLast?_append])
        rw [ht] at hnot
        cases hnot
      | cons c rest => exact bounded_cons (hrun ht c rfl) _
    · simpa [Nat.add_assoc] using h'
  | unclosed => cases hend

/-- A token between a text whose lexing comes to its end and any other text. -/
theorem append_covers {t : Token} {chars : List Char} (h : Lexes o cs spans (.ok x))
    (hcovers : t.Covers chars)
    (hseam : (∀ c ∈ cs.getLast?, isWordChar c = false) ∨ Bounded (chars ++ ds))
    (hrun : t.isRun = true → Bounded ds)
    (h' : Lexes (o + width cs + width chars) ds spans' stop) :
    Lexes o (cs ++ (chars ++ ds)) (spans ++ ⟨⟨t, o + width cs⟩, chars⟩ :: spans') stop := by
  have hspan : Lexes (o + width cs) ([] ++ (chars ++ ds))
      (⟨⟨t, o + width cs + width []⟩, chars⟩ :: spans') stop :=
    .token (by simp) hcovers hrun h'
  exact h.append hseam hspan

/-- Lexing that comes to the end stops there. -/
theorem stop_eq (h : Lexes o cs spans (.ok x)) : x = ⟨.eof, o + width cs⟩ := by
  generalize hend : (Except.ok x : Except QueryError Lexeme) = e at h
  induction h with
  | done _ => cases hend; rfl
  | token _ _ _ _ ih => simpa [Nat.add_assoc] using ih hend
  | unclosed => cases hend

/-- The first spans are those of the start of the text. -/
theorem exists_take (h : Lexes o cs spans stop) (k : Nat) :
    ∃ before x, before <+: cs ∧ Lexes o before (spans.take k) (.ok x) := by
  have hnil : ∀ o, Lexes o [] [] (.ok ⟨.eof, o + width []⟩) := fun o => .done (by simp)
  induction h generalizing k with
  | @done o blanks _ => exact ⟨[], _, List.nil_prefix, by simpa using hnil o⟩
  | @unclosed o blanks rest _ _ _ _ => exact ⟨[], _, List.nil_prefix, by simpa using hnil o⟩
  | @token o blanks chars rest t spans stop hblanks hcovers hrun _ ih =>
    cases k with
    | zero => exact ⟨[], _, List.nil_prefix, hnil o⟩
    | succ k =>
      obtain ⟨before, x, hbefore, hlexes⟩ := ih k
      refine ⟨blanks ++ (chars ++ before), x, ?_, .token hblanks hcovers (fun ht => ?_) hlexes⟩
      · simpa using hbefore
      · exact (hrun ht).initial hbefore

/-- Lexing that fails comes to a quote that nothing closes. -/
theorem exists_unclosed (h : Lexes o cs spans (.error e)) :
    ∃ before quote after, cs = before ++ quote :: after ∧ isQuote quote = true ∧
      Text.Unclosed quote after ∧ e = .unterminatedText (o + width before) ∧
      ∃ x, Lexes o before spans (.ok x) := by
  generalize hend : (Except.error e : Except QueryError Lexeme) = stop at h
  induction h with
  | done _ => cases hend
  | @token o blanks chars rest t spans stop hblanks hcovers hrun _ ih =>
    obtain ⟨before, quote, after, rfl, hquote, hclosed, he, x, hx⟩ := ih hend
    exact ⟨blanks ++ (chars ++ before), quote, after, by simp, hquote, hclosed,
      by simp [he, Nat.add_assoc], x,
      .token hblanks hcovers (fun ht => (hrun ht).initial (List.prefix_append _ _)) hx⟩
  | unclosed hblanks hquote hclosed =>
    cases hend
    exact ⟨_, _, _, rfl, hquote, hclosed, rfl, _, .done hblanks⟩

end Lexes

/-- The lexemes of a lexer are those of the spans of its text. -/
theorem lexemes_eq_iff {cs : List Char} {o : Nat} {xs : List Lexeme}
    {stop : Except QueryError Lexeme} : lexemes ⟨cs, o, none⟩ = (xs, stop) ↔
      ∃ spans, xs = spans.map Span.lexeme ∧ Lexes o cs spans stop := by
  constructor
  · intro h
    obtain ⟨spans, stop', hlexes⟩ := Lexes.exists_lexes cs o
    rw [hlexes.lexemes_eq] at h
    cases h
    exact ⟨spans, rfl, hlexes⟩
  · rintro ⟨spans, rfl, h⟩
    exact h.lexemes_eq

/-! ## Spans in the whole text -/

/-- The span covers characters of the text at its place, those of its token and, for a word or a
number, no fewer than it can. -/
structure Span.Stands (s : Span) (text : List Char) : Prop where
  covers : s.lexeme.token.Covers s.chars
  stands : ∃ before after, text = before ++ (s.chars ++ after) ∧ s.start = width before ∧
    (s.lexeme.token.isRun = true →
      (∀ c ∈ before.getLast?, isWordChar c = false) ∧ ∀ c ∈ after.head?, isWordChar c = false)

/-- The spans divide the text: they cover characters, one after the other and none twice, from
character to character, and what they leave are separators. -/
structure Divides (spans : List Span) (text : String) : Prop where
  stands : ∀ s ∈ spans, s.Stands text.toList
  nonempty : ∀ s ∈ spans, s.start < s.stop
  ordered : spans.Pairwise fun s s' => s.stop ≤ s'.start
  boundary : ∀ s ∈ spans, (⟨s.start⟩ : String.Pos.Raw).IsValid text ∧
    (⟨s.stop⟩ : String.Pos.Raw).IsValid text
  between : ∀ before c after, text.toList = before ++ c :: after → isSeparator c = false →
    ∃ s ∈ spans, s.start ≤ width before ∧ width before < s.stop

/-- A place behind characters of a text is a boundary. -/
theorem isValid_width {text : String} {before after : List Char}
    (h : text.toList = before ++ after) : (⟨width before⟩ : String.Pos.Raw).IsValid text := by
  rw [String.Pos.Raw.isValid_iff_exists_append]
  refine ⟨String.ofList before, String.ofList after, ?_, ?_⟩
  · rw [← String.ofList_append, ← h, String.ofList_toList]
  · rw [String.Pos.Raw.ext_iff, String.byteIdx_rawEndPos, utf8ByteSize_ofList]

namespace Span.Stands

variable {s : Span} {text : String}

theorem start_lt_stop {text : List Char} (h : s.Stands text) : s.start < s.stop :=
  Nat.lt_add_of_pos_right (width_pos h.covers.ne_nil)

theorem start_lt_size (h : s.Stands text.toList) : s.start < text.utf8ByteSize := by
  obtain ⟨before, after, htext, hstart, -⟩ := h.stands
  have := width_pos h.covers.ne_nil
  rw [← String.ofList_toList (s := text), utf8ByteSize_ofList, htext, hstart]
  simp only [width_append]
  omega

theorem boundary (h : s.Stands text.toList) : (⟨s.start⟩ : String.Pos.Raw).IsValid text ∧
    (⟨s.stop⟩ : String.Pos.Raw).IsValid text := by
  obtain ⟨before, after, htext, hstart, -⟩ := h.stands
  refine ⟨by rw [hstart]; exact isValid_width htext, ?_⟩
  rw [Span.stop, hstart, ← width_append]
  exact isValid_width (by rw [htext, List.append_assoc])

end Span.Stands

namespace Lexes

variable {o : Nat} {cs : List Char} {spans : List Span} {x : Lexeme}
  {stop : Except QueryError Lexeme}

theorem le_start (h : Lexes o cs spans stop) : ∀ s ∈ spans, o ≤ s.start := by
  induction h with
  | done _ => simp
  | unclosed _ _ _ => simp
  | token _ _ _ _ ih =>
    refine List.forall_mem_cons.mpr ⟨Nat.le_add_right _ _, fun s hs => ?_⟩
    have := ih s hs
    omega

theorem ordered (h : Lexes o cs spans stop) : spans.Pairwise fun s s' => s.stop ≤ s'.start := by
  induction h with
  | done _ => exact .nil
  | unclosed _ _ _ => exact .nil
  | token _ _ _ htail ih => exact .cons (fun s hs => htail.le_start s hs) ih

/-- The spans stand in any text that has the characters at their place. A word right at the start of
the characters must not go on before them: either no word ends there, or none starts. -/
theorem stands {before : List Char} (h : Lexes (width before) cs spans stop)
    (hseam : (∀ c ∈ before.getLast?, isWordChar c = false) ∨ Bounded cs) :
    ∀ s ∈ spans, s.Stands (before ++ cs) := by
  generalize ho : width before = o at h
  induction h generalizing before with
  | done _ => simp
  | unclosed _ _ _ => simp
  | @token o blanks chars rest t spans stop hblanks hcovers hrun _ ih =>
    refine List.forall_mem_cons.mpr ⟨⟨hcovers, before ++ blanks, rest, by simp, by simp [← ho,
      Span.start], fun ht => ⟨?_, hrun ht⟩⟩, fun s hs => ?_⟩
    · -- The character before the word is a separator, or the seam is right before the word.
      rcases List.eq_nil_or_concat blanks with rfl | ⟨ds, d, rfl⟩
      · rw [List.append_nil]
        exact hseam.resolve_right (hcovers.not_bounded ht rest)
      · simpa [List.concat_eq_append, ← List.append_assoc] using
          isWordChar_of_isSeparator (hblanks d (by simp))
    · have hseam' : (∀ c ∈ (before ++ (blanks ++ chars)).getLast?, isWordChar c = false) ∨
          Bounded rest := by
        by_cases ht : t.isRun = true
        · exact .inr (hrun ht)
        · rw [← List.append_assoc, List.getLast?_append, Option.or_of_isSome
            (List.getLast?_isSome.mpr hcovers.ne_nil)]
          exact .inl (hcovers.getLast?_of_not_isRun (by simpa using ht))
      have := ih hseam' (by simp [ho, Nat.add_assoc]) s hs
      simpa using this

/-- A character of two texts stands in the first or in the second. -/
theorem eq_append_cons_of_append {cs ds before after : List Char} {c : Char}
    (h : cs ++ ds = before ++ c :: after) : (∃ mid, cs = before ++ c :: mid) ∨
      ∃ mid, before = cs ++ mid ∧ ds = mid ++ c :: after := by
  obtain ⟨mid, hbefore, hds⟩ | ⟨mid, rfl, hds⟩ := List.append_eq_append_iff.mp h
  · exact .inr ⟨mid, hbefore, hds⟩
  · cases mid with
    | nil => exact .inr ⟨[], by simp, hds.symm⟩
    | cons d mid =>
      cases hds
      exact .inl ⟨mid, rfl⟩

/-- Where lexing comes to the end, a character that no span covers is a separator. -/
theorem between (h : Lexes o cs spans (.ok x)) {before after : List Char} {c : Char}
    (hcs : cs = before ++ c :: after) (hc : isSeparator c = false) :
    ∃ s ∈ spans, s.start ≤ o + width before ∧ o + width before < s.stop := by
  generalize hend : (Except.ok x : Except QueryError Lexeme) = e at h
  induction h generalizing before with
  | done hblanks =>
    rw [hblanks c (by simp [hcs])] at hc
    cases hc
  | unclosed _ _ _ => cases hend
  | @token o blanks chars rest t spans stop hblanks hcovers hrun _ ih =>
    -- The character is one of the separators, of the token, or of what follows it.
    obtain ⟨mid, rfl⟩ | ⟨mid, rfl, hmid⟩ := eq_append_cons_of_append hcs
    · rw [hblanks c (by simp)] at hc
      cases hc
    obtain ⟨mid', rfl⟩ | ⟨mid', rfl, hmid'⟩ := eq_append_cons_of_append hmid
    · have := c.utf8Size_pos
      refine ⟨_, List.mem_cons_self, ?_⟩
      simp only [Span.start, Span.stop, width_append, width_cons]
      omega
    · obtain ⟨s, hs, hle, hlt⟩ := ih hmid' hend
      refine ⟨s, List.mem_cons_of_mem _ hs, ?_⟩
      simp only [width_append]
      omega

/-- The spans of a text stand in it. -/
theorem stands_text {text : String} (h : Lexes 0 text.toList spans stop) :
    ∀ s ∈ spans, s.Stands text.toList := fun s hs => by
  have hstart : Lexes (width []) text.toList spans stop := h
  exact stands hstart (.inl (by simp)) s hs

/-- Lexing that comes to the end of a text stops there. -/
theorem stop_eq_text {text : String} (h : Lexes 0 text.toList spans (.ok x)) :
    x = ⟨.eof, text.utf8ByteSize⟩ := by
  rw [h.stop_eq, Nat.zero_add, ← utf8ByteSize_ofList, String.ofList_toList]

theorem divides {text : String} (h : Lexes 0 text.toList spans (.ok x)) : Divides spans text where
  stands := h.stands_text
  nonempty s hs := (h.stands_text s hs).start_lt_stop
  ordered := h.ordered
  boundary s hs := (h.stands_text s hs).boundary
  between before c after htext hc := by simpa using h.between htext hc

end Lexes

/-- A lexeme of a text is that of a span which stands in it. -/
theorem exists_span {text : String} {x : Lexeme} (hx : x ∈ (ofString text).lexemes.1) :
    ∃ s : Span, s.lexeme = x ∧ s.Stands text.toList := by
  obtain ⟨spans, stop, h⟩ := Lexes.exists_lexes text.toList 0
  have hlexemes : (ofString text).lexemes = _ := h.lexemes_eq
  rw [hlexemes] at hx
  obtain ⟨s, hs, rfl⟩ := List.mem_map.mp hx
  exact ⟨s, rfl, h.stands_text s hs⟩

/-! ## Where lexing fails -/

/-- At the byte offset stands a quote that nothing closes, behind a part of the text that has the
lexemes `xs` up to its end. -/
def UnclosedAt (text : String) (xs : List Lexeme) (position : Nat) : Prop :=
  ∃ before quote after, text.toList = before ++ quote :: after ∧ isQuote quote = true ∧
    Text.Unclosed quote after ∧ position = width before ∧
    (ofString (String.ofList before)).lexemes = (xs, .ok ⟨.eof, position⟩)

/-- Lexing fails exactly where a quote that would open a text is never closed. -/
theorem lexemes_eq_error_iff {text : String} {xs : List Lexeme} {e : QueryError} :
    (ofString text).lexemes = (xs, .error e) ↔
      ∃ position, e = .unterminatedText position ∧ UnclosedAt text xs position := by
  constructor
  · intro h
    obtain ⟨spans, rfl, hlexes⟩ := lexemes_eq_iff.mp h
    obtain ⟨before, quote, after, htext, hquote, hclosed, he, x, hx⟩ := hlexes.exists_unclosed
    refine ⟨width before, by simpa using he, before, quote, after, htext, hquote, hclosed, rfl, ?_⟩
    rw [ofString, String.toList_ofList, hx.lexemes_eq, hx.stop_eq, Nat.zero_add]
  · rintro ⟨_, rfl, before, quote, after, htext, hquote, hclosed, rfl, h⟩
    rw [ofString, String.toList_ofList] at h
    obtain ⟨spans, rfl, hlexes⟩ := lexemes_eq_iff.mp h
    have hrest : Lexes (0 + width before) ([] ++ quote :: after) [] _ :=
      .unclosed (by simp) hquote hclosed
    have := hlexes.append (.inr (bounded_cons (isWordChar_of_isQuote hquote) after)) hrest
    rw [ofString, htext]
    simpa using this.lexemes_eq

/-- The second text has the first lexemes of the first one, and behind them its lexing fails. -/
def CutShort (text text' : String) (e : QueryError) : Prop :=
  (ofString text').lexemes.1 <+: (ofString text).lexemes.1 ∧ (ofString text').lexemes.2 = .error e

/-- A text can be cut short behind any of its lexemes, by a quote. -/
theorem exists_cutShort (text : String) (k : Nat) : ∃ text' e, CutShort text text' e ∧
    (ofString text').lexemes.1 = (ofString text).lexemes.1.take k := by
  obtain ⟨spans, stop, h⟩ := Lexes.exists_lexes text.toList 0
  obtain ⟨before, x, -, hbefore⟩ := h.exists_take k
  have hlexemes : (ofString text).lexemes = _ := h.lexemes_eq
  have hcut : (ofString (String.ofList (before ++ ['"']))).lexemes =
      ((spans.take k).map Span.lexeme, .error (.unterminatedText (width before))) := by
    refine lexemes_eq_error_iff.mpr ⟨_, rfl, before, '"', [], by simp, by decide, ?_, rfl, ?_⟩
    · simp [Text.Unclosed]
    · rw [ofString, String.toList_ofList, hbefore.lexemes_eq, hbefore.stop_eq, Nat.zero_add]
  refine ⟨_, _, ⟨?_, by rw [hcut]⟩, ?_⟩
  · rw [hcut, hlexemes, List.map_take]
    exact List.take_prefix k _
  · rw [hcut, hlexemes, List.map_take]

/-- Lexing a text comes to its end with spans that divide it, or fails. It fails exactly where
behind the tokens of a part of the text a quote stands that nothing closes, with the byte offset of
that quote. -/
theorem lexemes_divide (text : String) :
    ((∃ spans, Divides spans text ∧
        (ofString text).lexemes = (spans.map Span.lexeme, .ok ⟨.eof, text.utf8ByteSize⟩)) ∨
      ∃ xs e, (ofString text).lexemes = (xs, .error e)) ∧
    ∀ xs e, (ofString text).lexemes = (xs, .error e) ↔
      ∃ position, e = .unterminatedText position ∧ UnclosedAt text xs position := by
  refine ⟨?_, fun xs e => lexemes_eq_error_iff⟩
  obtain ⟨spans, stop, h⟩ := Lexes.exists_lexes text.toList 0
  have hlexemes : (ofString text).lexemes = _ := h.lexemes_eq
  cases stop with
  | error e => exact .inr ⟨_, e, hlexemes⟩
  | ok x =>
    refine .inl ⟨spans, h.divides, ?_⟩
    rw [hlexemes, h.stop_eq_text]

end CalendarQuery.Lexer

import CalendarQuery.Proofs.Token.Partition

/-!
# Written texts are closed where they end

A text that is written between quotes is one token wherever it stands, and the characters of the
text decide neither where the token ends nor what stands around it.

* `next_quoted`: the lexer reads a written text up to what follows it.
* `next_cutShort`: a part of a written text is not closed.
* `lexemes_quoted`: a written text among other lexemes.
* `quoted_delimits`: the three together.
-/

namespace CalendarQuery.Lexer

open Token TokenStream

variable {s r before : String} {xs : List Lexeme} {x : Lexeme}

theorem width_toList (s : String) : width s.toList = s.utf8ByteSize := by
  rw [← utf8ByteSize_ofList, String.ofList_toList]

/-- The lexer reads a written text back, and then stands at what follows it. -/
theorem next_quoted (s r : String) (o : Nat) :
    next ⟨(Text.quoted s).toList ++ r.toList, o, none⟩ =
      .ok (⟨.quoted s, o⟩, ⟨r.toList, o + (Text.quoted s).utf8ByteSize, none⟩) := by
  rw [next_covers (covers_quoted s) nofun, width_toList]

/-- The lexer finds no closing quote in a part of a written text. -/
theorem next_cutShort {initial : List Char} (hinitial : initial <+: (Text.quoted s).toList)
    (hshort : initial ≠ (Text.quoted s).toList) (hne : initial ≠ []) (o : Nat) :
    next ⟨initial, o, none⟩ = .error (.unterminatedText o) := by
  rw [Text.toList_quoted, ← List.cons_append] at hinitial hshort
  -- The part ends before the closing quote.
  have hbody : initial <+: '"' :: Text.escape s.toList :=
    (List.prefix_concat_iff.mp hinitial).resolve_left hshort
  obtain ⟨c, cs, rfl⟩ := List.exists_cons_of_ne_nil hne
  obtain ⟨rfl, hcs⟩ := List.cons_prefix_cons.mp hbody
  exact next_unclosed (by decide) ((Text.unquotes_escape s.toList).unclosed (by decide) hcs) o

/-- A text of which the lexer finds no end is no token. -/
theorem not_covers_of_next_error {cs : List Char} {e : QueryError}
    (h : next ⟨cs, 0, none⟩ = .error e) (t : Token) : ¬t.Covers cs := by
  intro hcovers
  have hn := next_covers hcovers (fun _ => bounded_nil) 0
  rw [List.append_nil, h] at hn
  cases hn

/-- Behind a text that is lexed to its end, a written text is one lexeme, and the lexemes of what
follows it are those which that has by itself. -/
theorem lexemes_quoted (hbefore : (ofString before).lexemes = (xs, .ok x)) (s r : String) :
    (ofString (before ++ Text.quoted s ++ r)).lexemes =
      (xs ++ ⟨.quoted s, before.utf8ByteSize⟩ ::
          (lexemes ⟨r.toList, (before ++ Text.quoted s).utf8ByteSize, none⟩).1,
        (lexemes ⟨r.toList, (before ++ Text.quoted s).utf8ByteSize, none⟩).2) := by
  obtain ⟨spans, rfl, hlexes⟩ := lexemes_eq_iff.mp hbefore
  have hwidth : (before ++ Text.quoted s).utf8ByteSize =
      0 + width before.toList + width (Text.quoted s).toList := by
    simp [width_toList, String.utf8ByteSize_append]
  rw [hwidth]
  obtain ⟨later, stop, hlater⟩ := Lexes.exists_lexes r.toList
    (0 + width before.toList + width (Text.quoted s).toList)
  rw [hlater.lexemes_eq]
  have hquoted : Bounded ((Text.quoted s).toList ++ r.toList) := by
    rw [Text.toList_quoted]
    exact bounded_cons (by decide) _
  have hall := hlexes.append_covers (covers_quoted s) (.inr hquoted) nofun hlater
  have htext : (before ++ Text.quoted s ++ r).toList =
      before.toList ++ ((Text.quoted s).toList ++ r.toList) := by
    simp
  rw [ofString, htext]
  simpa [width_toList] using hall.lexemes_eq

/-- Reading undoes quoting in any surroundings. Whatever characters a text has and whatever follows
its written form, the lexer reads the text and stands behind its written form. No shorter part of
the written form is a token; the lexer finds it unterminated. And behind anything that is lexed to
its end, the written form is one lexeme and leaves the lexemes around it as they are. -/
theorem quoted_delimits (s : String) :
    (∀ (r : String) (o : Nat), next ⟨(Text.quoted s).toList ++ r.toList, o, none⟩ =
      .ok (⟨.quoted s, o⟩, ⟨r.toList, o + (Text.quoted s).utf8ByteSize, none⟩)) ∧
    (∀ initial, initial <+: (Text.quoted s).toList → initial ≠ (Text.quoted s).toList →
      (∀ value, ¬(Token.quoted value).Covers initial) ∧
      (initial ≠ [] → ∀ o, next ⟨initial, o, none⟩ = .error (.unterminatedText o))) ∧
    ∀ (before r : String) (xs : List Lexeme) (x : Lexeme),
      (ofString before).lexemes = (xs, .ok x) →
      (ofString (before ++ Text.quoted s ++ r)).lexemes =
        (xs ++ ⟨.quoted s, before.utf8ByteSize⟩ ::
            (lexemes ⟨r.toList, (before ++ Text.quoted s).utf8ByteSize, none⟩).1,
          (lexemes ⟨r.toList, (before ++ Text.quoted s).utf8ByteSize, none⟩).2) := by
  refine ⟨next_quoted s, fun initial hinitial hshort => ⟨fun value => ?_, fun hne o => ?_⟩,
    fun before r xs x hbefore => lexemes_quoted hbefore s r⟩
  · by_cases hne : initial = []
    · exact fun hcovers => hcovers.ne_nil hne
    · exact not_covers_of_next_error (next_cutShort hinitial hshort hne 0) _
  · exact next_cutShort hinitial hshort hne o

/-- A value that ends with a quote and a backslash, behind an open parenthesis: its first characters
are not a text, and what looks like syntax behind it is read as such only after the whole of it. -/
theorem quoted_delimits_backslash :
    next ⟨"\"a\\\"".toList, 0, none⟩ = .error (.unterminatedText 0) ∧
    ∃ ys stop, (ofString ("(" ++ Text.quoted "a\"\\" ++ ") | b")).lexemes =
      (⟨.symbol '(', 0⟩ :: ⟨.quoted "a\"\\", 1⟩ :: ys, stop) := by
  obtain ⟨-, hcut, hwhole⟩ := quoted_delimits "a\"\\"
  have hbefore : (ofString "(").lexemes = ([⟨.symbol '(', 0⟩], .ok ⟨.eof, 1⟩) := by
    have hn : (ofString "(").next = .ok (⟨.symbol '(', 0⟩, ⟨[], 1, none⟩) := rfl
    rw [lexemes_of_next hn (by decide), lexemes_of_eof (next_mk_nil 1) rfl]
  exact ⟨(hcut "\"a\\\"".toList (by decide) (by decide)).2 (by decide) 0, _, _,
    hwhole "(" ") | b" _ _ hbefore⟩

end CalendarQuery.Lexer

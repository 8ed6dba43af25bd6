import CalendarQuery.Proofs.Token.Partition
import CalendarQuery.Proofs.Token.Reading

/-!
# The places that causes tell

While a text is read, what is known is where its lexer stands among the lexemes of the whole text.
So the causes with which readers fail tell of these.

* `Found.Describes`: what was found is a token.
* `QueryError.Located`: the cause tells the truth about the tokens of a text.
* `Reading.placing`: the reading that knows the lexemes of the whole text.
-/

namespace CalendarQuery

/-- What was found is the token, by its own name or, for a property where it may not stand, by that
of the property. -/
def Found.Describes (found : Found) (t : Token) : Prop :=
  found = .token t ∧ found.text = t.describe ∨
    ∃ word, t = .word word ∧ Property.Misplaced word ∧ found = .property word ∧
      found.text = "property '" ++ word ++ "'"

/-- The cause tells the truth about the tokens of the text: a token that was found starts at the
place, a quote at the place is never closed, or lexing comes to the end. -/
def QueryError.Located (text : String) : QueryError → Prop
  | .unexpectedToken found _ position =>
    position < text.utf8ByteSize ∧ (⟨position⟩ : String.Pos.Raw).IsValid text ∧
      ∃ t, ⟨t, position⟩ ∈ (Lexer.ofString text).lexemes.1 ∧ t ≠ .eof ∧ found.Describes t
  | .unterminatedText position =>
    Lexer.UnclosedAt text (Lexer.ofString text).lexemes.1 position
  | .unexpectedEnd _ => (Lexer.ofString text).lexemes.2 = .ok ⟨.eof, text.utf8ByteSize⟩
  | _ => True

namespace QueryError

theorem located_of_not_tellsOfToken {text : String} {cause : QueryError}
    (h : cause.tellsOfToken = false) : cause.Located text := by
  cases cause <;> trivial

/-- A token of a text is found where it starts. -/
theorem located_of_mem {text : String} {x : Lexeme} {found : Found} (expected : Expected)
    (hx : x ∈ (Lexer.ofString text).lexemes.1) (hfound : found.Describes x.token) :
    (QueryError.unexpectedToken found expected x.position).Located text := by
  obtain ⟨s, rfl, hs⟩ := Lexer.exists_span hx
  exact ⟨hs.start_lt_size, hs.boundary.1, _, hx, hs.covers.ne_eof, hfound⟩

end QueryError

namespace Lexer

/-- Lexing that comes to the end of a text stops there. -/
theorem stop_eq_of_forall_ne {text : String} (h : ∀ e, (ofString text).lexemes.2 ≠ .error e) :
    (ofString text).lexemes.2 = .ok ⟨.eof, text.utf8ByteSize⟩ := by
  obtain ⟨spans, stop, hlexes⟩ := Lexes.exists_lexes text.toList 0
  have hlexemes : (ofString text).lexemes = _ := hlexes.lexemes_eq
  rw [hlexemes] at h ⊢
  cases stop with
  | error e => exact absurd rfl (h e)
  | ok x => rw [hlexes.stop_eq_text]

/-- The lexemes behind the end of an expression. -/
theorem lexemes_behind_eof {l l' : Lexer} {x : Lexeme} (hl : l.Gives l.stream)
    (hn : l.next = .ok (x, l')) (hx : x.token = .eof) :
    l'.lexemes = ([], .ok ⟨.eof, l'.offset⟩) := by
  have hrest := hl.rest_of_next hn hx
  have hheld := (next_spec hn).1
  obtain ⟨rest, o, held⟩ := l'
  simp only at hrest hheld
  subst hrest hheld
  exact lexemes_of_eof (next_mk_nil o) rfl

end Lexer

namespace Reading

open Lexer

/-- The lexer stands among the lexemes of the text, whose causes tell the truth. -/
def placing (text : String) : Reading where
  lexer l := l.Gives l.stream ∧ l.lexemes.1 <:+ (ofString text).lexemes.1 ∧
    (∀ e, l.lexemes.2 = .error e ↔ (ofString text).lexemes.2 = .error e)
  lexeme x := x ∈ (ofString text).lexemes.1 ∨
    x.token = .eof ∧ (ofString text).lexemes.2 = .ok ⟨.eof, text.utf8ByteSize⟩
  cause := QueryError.Located text

theorem placing_ofString (text : String) : (placing text).lexer (ofString text) :=
  ⟨gives_of_held_none rfl, List.suffix_rfl, fun _ => Iff.rfl⟩

theorem lawful_placing (text : String) : (placing text).Lawful where
  next := by
    rintro l l' x ⟨hl, hsuffix, hstop⟩ hn
    have hgives : l'.Gives l'.stream := gives_of_held_none (next_spec hn).1
    by_cases hx : x.token = .eof
    · have hcomplete : ∀ e, (ofString text).lexemes.2 ≠ .error e := fun e he => by
        rw [← hstop, lexemes_of_eof hn hx] at he
        cases he
      refine ⟨.inr ⟨hx, stop_eq_of_forall_ne hcomplete⟩, hgives, ?_⟩
      rw [lexemes_behind_eof hl hn hx]
      exact ⟨List.nil_suffix, fun e => ⟨nofun, fun he => absurd he (hcomplete e)⟩⟩
    · rw [lexemes_of_next hn hx] at hsuffix hstop
      exact ⟨.inl (hsuffix.mem List.mem_cons_self), hgives,
        (List.suffix_cons x _).trans hsuffix, hstop⟩
  pushBack := by
    rintro l l' x ⟨hl, hsuffix, hstop⟩ hn
    have hlexemes := lexemes_pushBack hn
    refine ⟨?_, by rwa [hlexemes], by rwa [hlexemes]⟩
    rw [stream, hlexemes]
    exact hl.pushBack hn
  unread := by
    rintro l cause ⟨-, hsuffix, hstop⟩ hn
    rw [lexemes_of_error hn] at hstop
    obtain ⟨position, rfl, hunclosed⟩ :=
      lexemes_eq_error_iff.mp (Prod.ext rfl ((hstop cause).mp rfl))
    exact hunclosed
  unexpected := by
    rintro x expected hx
    unfold QueryError.unexpected
    split
    · rename_i heof
      obtain hx | ⟨-, hstop⟩ := hx
      · obtain ⟨s, rfl, hs⟩ := exists_span hx
        exact absurd heof hs.covers.ne_eof
      · exact hstop
    · rename_i t heof
      obtain hx | ⟨hx, -⟩ := hx
      · exact QueryError.located_of_mem expected hx (.inl ⟨rfl, rfl⟩)
      · exact absurd hx heof
  misplaced := by
    rintro x word expected hx hword hmisplaced
    obtain hx | ⟨hx, -⟩ := hx
    · exact QueryError.located_of_mem expected hx (.inr ⟨word, hword, hmisplaced, rfl, rfl⟩)
    · rw [hword] at hx
      cases hx
  placeless h := QueryError.located_of_not_tellsOfToken (QueryError.tellsOfToken_of_isPlaceless h)

end Reading

end CalendarQuery

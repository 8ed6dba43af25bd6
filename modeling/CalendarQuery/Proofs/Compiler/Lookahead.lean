import CalendarQuery.Proofs.Compiler.Diagnostics
import CalendarQuery.Proofs.Expression.Trace

/-!
# The compiler looks one lexeme ahead

A lexer that holds one lexeme at most loses none and repeats none, as long as a lexeme is returned
only right after it was delivered. The parser of expressions and the reader of sort expressions keep
to this on every path.

* `exists_trace_readAll`: reading a sort expression has a trace, as parsing an expression has.
* `Compiler.lookahead_faithful`: the lexer is faithful, and what is traced is careful.
* `Compiler.lookahead_faithful_returned`: a lexeme that is looked at, and one that is returned.
-/

namespace CalendarQuery

open Lexer (Use Careful Faithful disciplined kept)

/-- A sort expression that is read is read along a trace. -/
theorem exists_trace_readAll (ascending : Bool) (text : String) :
    ∃ us, Reader.Trace (SortKey.readAll ascending) (Lexer.ofString text) us
      (SortKey.readAll ascending (Lexer.ofString text)) := by
  obtain ⟨us, result, h⟩ := SortKey.traced_readAll ascending (Lexer.ofString text)
  exact ⟨us, h.result_eq ▸ h⟩

theorem parseSort_of_admits {limits : Limits} {text : String} (hlength : limits.admits text = true)
    (hblank : text.toList.all Text.isBlank = false) :
    parseSort limits text =
      (SortKey.readAll limits.defaultSortAscending (Lexer.ofString text)).map Prod.fst := by
  simp [parseSort, hlength, hblank]

namespace Compiler

/-- As long as calls return a lexeme only right after it was delivered and none has failed, a lexer
in use is faithful: it delivers the lexemes of the text in order, shows what comes next, and stands
nowhere behind the start of that; and where a lexeme may be returned, none is held. What compiling
an expression or a sort expression does with its lexer is of this kind, whatever the text is and
however it goes. -/
theorem lookahead_faithful (text : String) :
    (∀ calls : List Lexer.Call, disciplined false calls = true →
      (∀ cause, .failed cause ∉ Lexer.run text calls) →
        Faithful text ((Lexer.Session.start text).after calls) (kept calls (Lexer.run text calls))) ∧
    (∀ calls : List Lexer.Call, disciplined false (calls ++ [.back]) = true →
      (∀ cause, .failed cause ∉ Lexer.run text calls) →
        ((Lexer.Session.start text).after calls).lexer.held = none ∧
          ∃ x, ((Lexer.Session.start text).after calls).last = some x ∧
            (kept calls (Lexer.run text calls)).getLast? = some x) ∧
    (∀ (c : Compiler) (explicit : Bool) (levels : Nat) (resolving : List String) (m : Memos),
      c.limits.admits text = true →
        ∃ events, ExpressionTrace (c.selection explicit levels resolving).compile text m events
          ((c.compileWithin explicit levels resolving text).outcome m)) ∧
    (∀ (compile : Comparison → Compilation Filter) (m : Memos) (events : List Parser.Event)
      (r : Except QueryError Filter × Memos), ExpressionTrace compile text m events r →
        (parseExpression compile text).outcome m = r ∧ Careful text (Parser.uses events)) ∧
    (∀ limits : Limits, limits.admits text = true → text.toList.all Text.isBlank = false →
      ∃ us result, Reader.Trace (SortKey.readAll limits.defaultSortAscending) (Lexer.ofString text)
        us result ∧ parseSort limits text = result.map Prod.fst) ∧
    ∀ (ascending : Bool) (us : List Use) (result : Except QueryError (List SortKey × Lexer)),
      Reader.Trace (SortKey.readAll ascending) (Lexer.ofString text) us result →
        SortKey.readAll ascending (Lexer.ofString text) = result ∧ Careful text us := by
  refine ⟨fun calls hd hok => Lexer.faithful_run hd hok,
    fun calls hd hok => Lexer.returnable_run hd hok,
    fun c explicit levels resolving m hlength => ?_,
    fun compile m events r h => ⟨h.outcome_eq, h.orderly.careful⟩,
    fun limits hlength hblank => ?_, fun ascending us result h => ⟨h.result_eq, h.orderly.careful⟩⟩
  · rw [compileWithin_of_admits hlength]
    exact ExpressionTrace.exists_trace _ text m
  · obtain ⟨us, h⟩ := exists_trace_readAll limits.defaultSortAscending text
    exact ⟨us, _, h, parseSort_of_admits hlength hblank⟩

/-- A look ahead, and a lexeme that is returned and delivered again. -/
theorem lookahead_faithful_returned :
    let calls : List Lexer.Call := [.peek, .next, .next, .back, .position, .next]
    disciplined false calls = true ∧
      Lexer.run "a & b" calls = [.lexeme ⟨.word "a", 0⟩, .lexeme ⟨.word "a", 0⟩,
        .lexeme ⟨.symbol '&', 2⟩, .returned, .position 2, .lexeme ⟨.symbol '&', 2⟩] ∧
      (Lexer.ofString "a & b").Begins [⟨.word "a", 0⟩, ⟨.symbol '&', 2⟩] := by
  intro calls
  have hrun : Lexer.run "a & b" calls = [.lexeme ⟨.word "a", 0⟩, .lexeme ⟨.word "a", 0⟩,
      .lexeme ⟨.symbol '&', 2⟩, .returned, .position 2, .lexeme ⟨.symbol '&', 2⟩] := rfl
  have hok : ∀ cause, .failed cause ∉ Lexer.run "a & b" calls := by simp [hrun]
  have hfaithful := (lookahead_faithful "a & b").1 calls rfl hok
  rw [hrun] at hfaithful
  exact ⟨rfl, hrun, hfaithful.begins⟩

end Compiler

end CalendarQuery

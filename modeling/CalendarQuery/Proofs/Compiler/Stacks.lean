import CalendarQuery.Proofs.Compiler.Diagnostics
import CalendarQuery.Proofs.Compiler.Layers
import CalendarQuery.Proofs.Expression.StackDiscipline

/-!
# No compilation breaks the stacks

The parser's stacks always fit together, so the cause that they do not is the cause of no failure, of
an expression as little as of a filter that is attached to a collection.

* `QueryError.OfStacks`: the cause is that the stacks do not fit together, here or inside attached
  filters.
* `Compiler.keeps_fitting`, `parseSort_fitting`: no failure has that cause.
* `Compiler.stacks_fit`: nor does anything that the parser does come upon it.
-/

namespace CalendarQuery

namespace QueryError

/-- The stacks do not fit together, those of the expression or, inside layers of attached filters,
those of such a filter. -/
def OfStacks (cause : QueryError) : Prop :=
  ∃ owners, cause = within owners .invalidExpression

theorem ofStacks_nested {owner : String} {cause : QueryError} :
    (nested owner cause).OfStacks ↔ cause.OfStacks := by
  constructor
  · rintro ⟨_ | ⟨first, owners⟩, h⟩
    · cases h
    · exact ⟨owners, (nested.inj h).2⟩
  · rintro ⟨owners, rfl⟩
    exact ⟨owner :: owners, rfl⟩

/-- A cause that tells neither of the stacks nor of attached filters. -/
theorem not_ofStacks_of_quoting {asked : String → Prop} {cause : QueryError}
    (h : (Reading.quoting asked).cause cause) : ¬cause.OfStacks := by
  rintro ⟨_ | ⟨first, owners⟩, rfl⟩
  · exact h
  · exact h

theorem not_ofStacks_aliasDepthExceeded (limit : Nat) : ¬(aliasDepthExceeded limit).OfStacks := by
  rintro ⟨_ | ⟨first, owners⟩, h⟩
  · cases h
  · cases h

end QueryError

theorem parseSort_fitting {limits : Limits} {text : String} {cause : QueryError}
    (h : parseSort limits text = .error cause) : ¬cause.OfStacks := by
  have hK := Reading.lawful_quoting fun _ => True
  obtain ⟨-, rfl⟩ | ⟨-, -, hread⟩ := parseSort_eq_error.mp h
  · exact QueryError.not_ofStacks_of_quoting (hK.placeless rfl)
  · exact QueryError.not_ofStacks_of_quoting
      ((SortKey.obeys_readAll hK _ _ (Reading.quoting_ofString text)).2 cause hread)

namespace Compiler

open Compilation

variable {c : Compiler} {explicit : Bool} {levels : Nat} {resolving : List String} {text : String}

/-- A compilation fails with no such cause; the induction is on the levels, since an attached filter
puts a layer around the cause that it fails with. -/
theorem keeps_fitting : Keeps (fun _ => True) (fun cause => ¬cause.OfStacks) (fun _ => True)
    (c.compileWithin explicit levels resolving text) := by
  have hplain : ∀ {cause}, (Reading.quoting fun _ => True).cause cause → ¬cause.OfStacks :=
    QueryError.not_ofStacks_of_quoting
  have hlayer : ∀ (owner : String) (cause : QueryError), ¬cause.OfStacks →
      ¬(QueryError.nested owner cause).OfStacks :=
    fun _ _ h => mt QueryError.ofStacks_nested.mp h
  induction levels generalizing resolving text with
  | zero =>
    have hlimit := QueryError.not_ofStacks_aliasDepthExceeded c.limits.maxAliasDepth
    exact keeps_of_attached Filter.inherited_true hplain (Hierarchy.answers_true c.hierarchy)
      (fun _ _ _ _ => Keeps.throw hlimit) (fun _ _ _ => Keeps.throw hlimit)
      (fun _ _ _ => trivial) (Reading.quoting_ofString text)
  | succ levels ih =>
    exact keeps_of_attached Filter.inherited_true hplain (Hierarchy.answers_true c.hierarchy)
      (fun _ _ _ _ => ih.mapError (hlayer _)) (fun _ _ _ => ih.mapError (hlayer _))
      (fun _ _ _ => trivial) (Reading.quoting_ofString text)

/-- Whatever the hierarchy, the limits and the memos, no expression, attached filter or sort
expression fails because the stacks do not fit together. Each expression has a trace of what the
parser does, and every trace of it finds and leaves the stacks as it should (`Event.Sound`): a level
or a factor that succeeds leaves them as it found them, but for an operator that waited, and with one
filter more unless one waited; an operator is chosen where a level has begun; and two filters are
there for an operator that waits. -/
theorem stacks_fit (c : Compiler) (text : String) :
    (∀ (explicit : Bool) (levels : Nat) (resolving : List String) (m m' : Memos)
      (owners : List String), (c.compileWithin explicit levels resolving text).outcome m ≠
        (.error (.within owners .invalidExpression), m')) ∧
    (∀ (explicit : Bool) (source label : String) (m m' : Memos) (owners : List String),
      c.filter text explicit source m ≠ (.failed label (.within owners .invalidExpression), m')) ∧
    (∀ (label : String) (owners : List String),
      c.sort text ≠ .failed label (.within owners .invalidExpression)) ∧
    (∀ (explicit : Bool) (levels : Nat) (resolving : List String) (m : Memos),
      c.limits.admits text = true →
        ∃ events, ExpressionTrace (c.selection explicit levels resolving).compile text m events
          ((c.compileWithin explicit levels resolving text).outcome m)) ∧
    ∀ (compile : Comparison → Compilation Filter) (m : Memos) (events : List Parser.Event)
      (r : Except QueryError Filter × Memos), ExpressionTrace compile text m events r →
        (parseExpression compile text).outcome m = r ∧ ∀ e ∈ events, e.Sound compile := by
  have hfits : ∀ (explicit : Bool) (levels : Nat) (resolving : List String) (m m' : Memos)
      (owners : List String), (c.compileWithin explicit levels resolving text).outcome m ≠
        (.error (.within owners .invalidExpression), m') := by
    intro explicit levels resolving m m' owners h
    exact (keeps_fitting m fun _ => trivial).2.2 _ (congrArg Prod.fst h) ⟨owners, rfl⟩
  refine ⟨hfits, fun explicit source label m m' owners h => ?_, fun label owners h => ?_,
    fun explicit levels resolving m hlength => ?_, fun compile m events r h =>
      ⟨h.outcome_eq, h.sound⟩⟩
  · exact hfits explicit _ [] m m' owners (filter_eq_failed.mp h).2
  · exact parseSort_fitting (sort_eq_failed.mp h).2 ⟨owners, rfl⟩
  · rw [compileWithin_of_admits hlength]
    exact ExpressionTrace.exists_trace _ text m

end Compiler

end CalendarQuery

import CalendarQuery.Compiler
import CalendarQuery.Hierarchy.Store
import CalendarQuery.Proofs.Expression.Parser
import CalendarQuery.Proofs.Filter.Tree

/-!
# The compiler follows the grammar

Compiling an expression, at whatever level of attached filters, is parsing it with the comparisons
of one selection (`compileWithin_eq`). So what is known of the parser holds of the compiler, and of
the filters attached to collections.

* `Compiler.selection`: the selection that compiles the comparisons of an expression.
* `compileWithin_eq_ok`: an expression compiles to the filter of its syntax tree.
* `filter_iff_grammar`: the same for a whole call, with the failure where operators are mixed.
-/

namespace CalendarQuery.Compiler

open Compilation Grammar

variable (c : Compiler)

/-- How attached filters are compiled while the paths in `resolving` are being resolved and
`levels` more levels may be compiled. -/
def attachedWithin (explicit : Bool) :
    (levels : Nat) → (resolving : List String) → String → String → String → Compilation Filter
  | 0, _ => fun _ _ _ => throw (.aliasDepthExceeded c.limits.maxAliasDepth)
  | levels + 1, resolving => fun vpath owner expression =>
    mapError (.nested owner) (c.compileWithin explicit levels (vpath :: resolving) expression)

/-- The selection for the comparisons of an expression. -/
def selection (explicit : Bool) (levels : Nat) (resolving : List String) : Selection :=
  ⟨c.hierarchy, explicit, resolving, c.attachedWithin explicit levels resolving⟩

/-- How the comparisons of an expression that no other expression refers to are compiled. -/
def comparing (explicit : Bool) : Comparison → Compilation Filter :=
  (c.selection explicit c.limits.maxAliasDepth []).compile

variable {c} {explicit : Bool} {levels : Nat} {resolving : List String} {text : String}

theorem compileWithin_eq : c.compileWithin explicit levels resolving text =
    if c.limits.admits text then
      parseExpression (c.selection explicit levels resolving).compile text
    else throw (.tooLong text.utf8ByteSize c.limits.maxExpressionLength) := by
  cases levels <;> rfl

theorem compileWithin_of_admits (h : c.limits.admits text = true) :
    c.compileWithin explicit levels resolving text =
      parseExpression (c.selection explicit levels resolving).compile text := by
  rw [compileWithin_eq, if_pos h]

/-- An expression compiles, in whatever context, to the filter of a syntax tree that its tokens
spell. -/
theorem compileWithin_eq_ok {m m' : Memos} {f : Filter} :
    (c.compileWithin explicit levels resolving text).outcome m = (.ok f, m') ↔
      c.limits.admits text = true ∧ ∃ level : Level,
        level.Spells (TokenStream.ofString text) .done ∧ level.nesting ≤ maxNesting ∧
        (level.denote (c.selection explicit levels resolving).compile).outcome m =
          (.ok f, m') := by
  by_cases h : c.limits.admits text = true
  · rw [compileWithin_of_admits h, parseExpression_eq_ok]
    simp [h]
  · rw [compileWithin_eq, if_neg h]
    simp [h]

theorem filter_eq_filter {source : String} {m m' : Memos} {f : Filter} :
    c.filter text explicit source m = (.filter f, m') ↔
      (c.compile explicit text).outcome m = (.ok f, m') := by
  unfold filter
  generalize (c.compile explicit text).outcome m = r
  rcases r with ⟨_ | g, m₁⟩ <;> simp

theorem filter_eq_failed {source label : String} {m m' : Memos} {cause : QueryError} :
    c.filter text explicit source m = (.failed label cause, m') ↔
      label = source ∧ (c.compile explicit text).outcome m = (.error cause, m') := by
  unfold filter
  generalize (c.compile explicit text).outcome m = r
  rcases r with ⟨_ | g, m₁⟩ <;> simp [eq_comm, and_assoc]

theorem filter_of_error {source : String} {m m' : Memos} {cause : QueryError}
    (h : (c.compile explicit text).outcome m = (.error cause, m')) :
    c.filter text explicit source m = (.failed source cause, m') :=
  filter_eq_failed.mpr ⟨rfl, h⟩

/-- The text of a single comparison compiles as the comparison does. -/
theorem outcome_compile_of_reads {comparison : Comparison} (hlength : c.limits.admits text = true)
    (h : Reader.Reads Comparison.readNext (TokenStream.ofString text) comparison .done)
    (m : Memos) :
    (c.compile explicit text).outcome m = (c.comparing explicit comparison).outcome m := by
  rw [compile, compileWithin_of_admits hlength, parseExpression_of_reads h]
  rfl

/-- An expression that is not too long compiles to a filter if and only if its tokens are spelled
by a syntax tree within the greatest nesting whose comparisons compile, and then to the filter of
that tree; so blanks and places do not matter. Where a level goes on with a second operator, and
all before it is accepted, the failure says so. -/
theorem filter_iff_grammar (c : Compiler) (text : String) (explicit : Bool) (source : String)
    (m : Memos) (hlength : c.limits.admits text = true) :
    (∀ (f : Filter) (m' : Memos), c.filter text explicit source m = (.filter f, m') ↔
      ∃ level : Level, level.Spells (TokenStream.ofString text) .done ∧
        level.nesting ≤ maxNesting ∧
        (level.denote (c.comparing explicit)).outcome m = (.ok f, m')) ∧
    (∀ text' : String, c.limits.admits text' = true →
      TokenStream.ofString text' = TokenStream.ofString text →
      ∀ (f : Filter) (m' : Memos), c.filter text' explicit source m = (.filter f, m') ↔
        c.filter text explicit source m = (.filter f, m')) ∧
    (∀ (before : Opened) (level : Level) (s s' : TokenStream) (t : Token) (op : LogicalOp)
      (m₁ m' : Memos) (f : Filter), before.Spells (TokenStream.ofString text) s →
      before.Fits 0 → (before.accept (c.comparing explicit)).outcome m = (.ok (), m₁) →
      level.Spells s (s'.cons t) → before.length + level.nesting ≤ maxNesting →
      level.others ≠ [] → (level.denote (c.comparing explicit)).outcome m₁ = (.ok f, m') →
      t.logicalOp? = some op → op ≠ level.op →
      c.filter text explicit source m = (.failed source .mixedOperators, m')) := by
  have haccepted : ∀ text' : String, c.limits.admits text' = true →
      ∀ (f : Filter) (m' : Memos), c.filter text' explicit source m = (.filter f, m') ↔
        ∃ level : Level, level.Spells (TokenStream.ofString text') .done ∧
          level.nesting ≤ maxNesting ∧
          (level.denote (c.comparing explicit)).outcome m = (.ok f, m') := by
    intro text' h f m'
    rw [filter_eq_filter, compile, compileWithin_eq_ok]
    simp only [h, true_and]
    rfl
  refine ⟨haccepted text hlength, fun text' h hs f m' => ?_, ?_⟩
  · rw [haccepted text' h, haccepted text hlength, hs]
  · intro before level s s' t op m₁ m' f hbefore hfits haccept hlevel hn hothers hd hop hne
    refine filter_of_error ?_
    rw [compile, compileWithin_of_admits hlength]
    exact parseExpression_mixed hbefore hfits haccept hlevel hn hothers hd hop hne

/-- The test that a property is there. -/
def defined (p : Property) : Filter := .presence (.single p) true

/-- The factor that tests whether a property is there. -/
def definedFactor (p : Property) : Factor := .comparison (.direct (defined p))

theorem writes_defined (s : Selection) (p : Property) (h : p.isSub = false) :
    Factor.Writes s (definedFactor p) (defined p) :=
  writes_leaf (f := defined p) (PropertyPath.wellFormed_single h)

/-- An expression with two operators in its parentheses, and behind them no more than the start of
a quoted text. -/
def mixedText : String := "uid isdefined & (owner isdefined | url isdefined & \""

/-- Whatever stands behind the second operator of a level, that operator is the failure. -/
theorem filter_mixedText :
    Limits.standard.admits mixedText = true ∧
      (⟨Store.empty.hierarchy, .standard⟩ : Compiler).filter mixedText false "" .empty =
        (.failed "" .mixedOperators, .empty) := by
  have hlength : Limits.standard.admits mixedText = true := by decide
  let c : Compiler := ⟨Store.empty.hierarchy, .standard⟩
  let s := c.selection false c.limits.maxAliasDepth []
  let choices := [defined .owner, defined .url]
  let rest := TokenStream.ofChars [' ', '"']
  have hchars : mixedText.toList = (defined .uid).text.toList ++ ' ' :: '&' :: ' ' :: '(' ::
      ((Filter.or choices).text.toList ++ ' ' :: '&' :: [' ', '"']) := by
    decide
  have hstream : TokenStream.ofString mixedText =
      ((((rest.cons (.symbol '&')).append (Filter.groupTokens .or choices)).cons (.symbol '(')).cons
        (.symbol '&')).append (Filter.groupTokens .and [defined .uid]) := by
    rw [TokenStream.ofString, hchars, TokenStream.ofChars_text _ (TokenStream.bounded_blank _),
      TokenStream.ofChars_blank, TokenStream.ofChars_symbol (by decide), TokenStream.ofChars_blank,
      TokenStream.ofChars_symbol (by decide),
      TokenStream.ofChars_text _ (TokenStream.bounded_blank _), TokenStream.ofChars_blank,
      TokenStream.ofChars_symbol (by decide)]
    rfl
  have hgiven := TokenStream.given_ofString mixedText
  have houter := writes_level .and (writes_defined s .uid rfl)
    (writes_further_nil .and)
  have hinner := writes_level .or (writes_defined s .owner rfl)
    (writes_further_cons (writes_defined s .url rfl) (writes_further_nil .or))
  rw [hstream] at hgiven
  have hbefore : Opened.Spells [some (.mk (definedFactor .uid) .and [])]
      (TokenStream.ofString mixedText)
      ((rest.cons (.symbol '&')).append (Filter.groupTokens .or choices)) := by
    rw [hstream]
    exact ⟨.symbol '&', _, houter.spells _ (ends_symbol _ (by decide)) hgiven, rfl, rfl⟩
  have hmixed := (filter_iff_grammar c mixedText false "" .empty hlength).2.2
    [some (.mk (definedFactor .uid) .and [])]
    (.mk (definedFactor .owner) .or [definedFactor .url]) _ rest (.symbol '&') .and .empty .empty
    (.or choices) hbefore
  refine ⟨hlength, hmixed ?_ ?_ ?_ (by decide) (by simp [Level.others]) (hinner.denote _) rfl
    (by decide)⟩
  · exact ⟨by decide, by simp [Level.nesting, Factor.nesting, definedFactor, nestingEach], trivial⟩
  · exact outcome_bind_of_ok (houter.denote .empty)
  · exact hinner.spells _ (ends_symbol _ (by decide)) hgiven.of_append.of_cons.of_cons

end CalendarQuery.Compiler

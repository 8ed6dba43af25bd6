import CalendarQuery.Comparison.Compile
import CalendarQuery.Expression.Parser
import CalendarQuery.Sort

/-!
# The compiler

* `Compiler.filter`: a filter expression as a filter.
* `Compiler.sort`: a sort expression as keys.
* `Compiler.compileWithin`: the same as `filter`, in a context: how many levels of attached filters
  may still be compiled, and which virtual paths are being resolved.
* `Outcome`: what a caller is told.

A filter attached to a collection is compiled one level deeper. The levels run out at the limit of
the compiler, and so compiling ends whatever the filters refer to.
-/

namespace CalendarQuery

/-- A compiler for expressions over a hierarchy. -/
structure Compiler where
  hierarchy : Hierarchy
  limits : Limits

/-- What a compilation leads to. -/
inductive Outcome
  | filter (filter : Filter)
  | sortKeys (keys : List SortKey)
  /-- The cause of the failure, and the label of the text that failed. -/
  | failed (source : String) (cause : QueryError)
  deriving DecidableEq, Repr

namespace Outcome

/-- The expression compiled. -/
def isOk : Outcome → Bool
  | failed .. => false
  | _ => true

/-- The wording of a failure: the cause after the label, if there is one. -/
def failureText (source : String) (cause : QueryError) : String :=
  if source.isEmpty then cause.message else source ++ ": " ++ cause.message

/-- The filter, if the outcome is one. -/
def toFilter : Outcome → Except QueryError Filter
  | filter f => .ok f
  | sortKeys _ => .error .invalidExpression
  | failed _ cause => .error cause

/-- The sort keys, if the outcome is a list of them. -/
def toSortKeys : Outcome → Except QueryError (List SortKey)
  | sortKeys ks => .ok ks
  | filter _ => .error .invalidExpression
  | failed _ cause => .error cause

end Outcome

namespace Compiler

variable (c : Compiler)

/-- An expression as a filter: first its length is checked, then it is parsed, and its comparisons
are compiled with `attached` for the filters of collections. -/
def compileUnder (explicit : Bool) (resolving : List String)
    (attached : String → String → String → Compilation Filter) (text : String) :
    Compilation Filter :=
  if c.limits.admits text then
    parseExpression (Selection.compile ⟨c.hierarchy, explicit, resolving, attached⟩) text
  else throw (.tooLong text.utf8ByteSize c.limits.maxExpressionLength)

/-- An expression as a filter, while the paths in `resolving` are being resolved and `levels` more
levels of attached filters may be compiled. -/
def compileWithin (explicit : Bool) :
    (levels : Nat) → (resolving : List String) → String → Compilation Filter
  | 0, resolving =>
    c.compileUnder explicit resolving fun _ _ _ =>
      throw (.aliasDepthExceeded c.limits.maxAliasDepth)
  | levels + 1, resolving =>
    c.compileUnder explicit resolving fun vpath owner expression =>
      Compilation.mapError (.nested owner)
        (compileWithin explicit levels (vpath :: resolving) expression)

/-- A filter expression as a filter. -/
def compile (explicit : Bool) (text : String) : Compilation Filter :=
  c.compileWithin explicit c.limits.maxAliasDepth [] text

/-- A filter expression: the outcome and the memos after it. -/
def filter (text : String) (explicit : Bool) (source : String) (memos : Memos) :
    Outcome × Memos :=
  match (c.compile explicit text).outcome memos with
  | (.ok f, memos) => (.filter f, memos)
  | (.error cause, memos) => (.failed source cause, memos)

/-- A sort expression. -/
def sort (text : String) : Outcome :=
  match parseSort c.limits text with
  | .ok keys => .sortKeys keys
  | .error cause => .failed "" cause

end Compiler

end CalendarQuery

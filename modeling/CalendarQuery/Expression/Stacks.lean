import CalendarQuery.Error
import CalendarQuery.Filter.Group

/-!
# The stacks of the expression parser

The parser keeps the operators it has met and the filters it has built on two stacks, shared by all
nesting levels. A level starts with a marker that records the operator chosen at that level.

* `Stacks.open`, `Stacks.close`: start and end of a level.
* `Stacks.choose`: one operator a level.
* `Stacks.foldPending`: the two newest filters under an operator that waits.
-/

namespace CalendarQuery

/-- An entry of the operator stack. -/
inductive StackEntry
  /-- The start of a nesting level, with the operator chosen there. -/
  | level (chosen : Option LogicalOp)
  /-- An operator that waits for its right operand. -/
  | pending (op : LogicalOp)
  deriving DecidableEq, Repr

/-- The stacks, the newest entries first. -/
structure Stacks where
  entries : List StackEntry
  filters : List Filter
  deriving DecidableEq, Repr

namespace Stacks

/-- The stacks before the whole expression. -/
def start : Stacks := ⟨[.level none], []⟩

/-- Starts a nesting level. -/
def openLevel (s : Stacks) : Stacks := { s with entries := .level none :: s.entries }

/-- Ends the innermost level. -/
def closeLevel (s : Stacks) : Except QueryError Stacks :=
  match s.entries with
  | .level _ :: entries => .ok { s with entries := entries }
  | _ => .error .invalidExpression

/-- Adds an operator that waits. -/
def pend (s : Stacks) (op : LogicalOp) : Stacks := { s with entries := .pending op :: s.entries }

/-- Adds a filter. -/
def push (s : Stacks) (filter : Filter) : Stacks := { s with filters := filter :: s.filters }

/-- Records an operator at the innermost level, where it must be the only one. -/
def chooseAt (op : LogicalOp) : List StackEntry → Except QueryError (List StackEntry)
  | [] => .error .invalidExpression
  | .pending p :: entries =>
    match chooseAt op entries with
    | .ok entries => .ok (.pending p :: entries)
    | .error cause => .error cause
  | .level none :: entries => .ok (.level (some op) :: entries)
  | .level (some chosen) :: entries =>
    if chosen = op then .ok (.level (some chosen) :: entries) else .error .mixedOperators

/-- Records an operator at the innermost level. -/
def choose (s : Stacks) (op : LogicalOp) : Except QueryError Stacks :=
  match chooseAt op s.entries with
  | .ok entries => .ok { s with entries := entries }
  | .error cause => .error cause

/-- Combines the two newest filters if an operator waits for them. -/
def foldPending (s : Stacks) : Except QueryError Stacks :=
  match s.entries with
  | .pending op :: entries =>
    match s.filters with
    | right :: left :: filters => .ok ⟨entries, Filter.fold left right op :: filters⟩
    | _ => .error .invalidExpression
  | _ => .ok s

/-- The one filter that is left when only the outermost level is. -/
def finish (s : Stacks) : Except QueryError Filter :=
  match s.entries, s.filters with
  | [_], [filter] => .ok filter
  | _, _ => .error .invalidExpression

end Stacks

end CalendarQuery

/-!
# Limits and defaults of a compiler
-/

namespace CalendarQuery

/-- What a compiler is told besides the expression. -/
structure Limits where
  /-- How many filters attached to collections may be compiled one inside the other. -/
  maxAliasDepth : Nat
  /-- The greatest number of bytes of an expression. -/
  maxExpressionLength : Nat
  /-- The direction of a sort key that names none. -/
  defaultSortAscending : Bool
  deriving DecidableEq, Repr

namespace Limits

/-- The values that hold unless others are given. -/
def standard : Limits := ⟨16, 8192, false⟩

/-- An expression that is too long is refused. -/
def admits (limits : Limits) (expression : String) : Bool :=
  expression.utf8ByteSize ≤ limits.maxExpressionLength

end Limits

end CalendarQuery

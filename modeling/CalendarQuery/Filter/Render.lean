import CalendarQuery.Filter

/-!
# Canonical text

`Filter.text` writes a filter as an expression that reads back to the same selection: groups
inside groups stand in parentheses, a view is written by its name, and the name of a group is not
written.
-/

namespace CalendarQuery.Filter

/-- A bound of a time range with the blank before it. -/
def boundText : Option Stamp → String
  | some t => " \"" ++ t.compact ++ "\""
  | none => ""

/-- The text of a child of a group, in parentheses if the child is a group. -/
def enclose (child : Filter) (text : String) : String :=
  if child.isGroup then "(" ++ text ++ ")" else text

mutual

/-- The canonical expression. -/
def text : Filter → String
  | .and _ children => groupText .and children
  | .or children => groupText .or children
  | .compare path operator operand _ _ _ _ =>
    path.text ++ " " ++ operator.symbol ++ " " ++ operand.render
  | .presence path isPresent =>
    path.text ++ " " ++ (if isPresent then Comparator.isDefined else .notDefined).symbol
  | .entity kind => Property.entityType.spelling ++ "=" ++ Text.quoted kind.name
  | .timeRange path first last => path.text ++ " in" ++ boundText first ++ " to" ++ boundText last
  | .view name _ => Property.view.spelling ++ "=" ++ Text.quoted name

/-- The children of a group with the operator between them. -/
def groupText (op : LogicalOp) : List Filter → String
  | [] => ""
  | [f] => enclose f (text f)
  | f :: g :: fs =>
    enclose f (text f) ++ " " ++ op.symbol.toString ++ " " ++ groupText op (g :: fs)

end

end CalendarQuery.Filter

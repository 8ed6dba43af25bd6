import CalendarQuery.Filter.Group

/-!
# Comparisons

A comparison as it is read from an expression, before the hierarchy is asked: either a filter that
needs no lookup, or a selection of collections or categories that does.
-/

namespace CalendarQuery

/-- A comparison as read. -/
inductive Comparison
  /-- A filter that needs no lookup. -/
  | direct (filter : Filter)
  /-- Every named view. -/
  | views (names : List String)
  /-- Every virtual path, with the filters attached along it. -/
  | virtualPaths (paths : List String)
  /-- Every collection path, without attached filters. -/
  | collectionPaths (paths : List String)
  /-- Categories by uid, each of which must exist. -/
  | categoryUids (path : PropertyPath) (operator : Comparator) (uids : List String)
  /-- A category by name, which must exist. -/
  | categoryName (operator : Comparator) (name : String)
  deriving DecidableEq, Repr

end CalendarQuery

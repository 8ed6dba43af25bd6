import CalendarQuery.Comparison
import CalendarQuery.Selection

/-!
# Compiling comparisons

A comparison becomes a filter; selections ask the hierarchy. A list of words stands for all of its
members together.

* `Selection.viewFilter`: a view as a filter, remembered from then on.
* `Selection.category`: a category by name or uid, which must exist.
* `Selection.compile`: a comparison as a filter.
-/

namespace CalendarQuery.Selection

variable (s : Selection)

/-- The filter of a view. The first filter that is computed for it is remembered, under the name
that the view has itself and not under the one that it was asked for by. -/
def viewFilter (name : String) : Compilation Filter := do
  match ← Compilation.ofLookup (s.hierarchy.view name) with
  | none => throw (.unknownView name)
  | some view =>
    match (← get).find? view.name with
    | some filter => return .view view.name filter
    | none =>
      let members ← view.collections.mapM s.virtualPath
      match Filter.all? members with
      | none => throw (.emptyView view.name)
      | some filter => return .view view.name (← Compilation.remember view.name filter)

/-- A category by uid; only an existing one can be compared with. -/
def categoryByUid (path : PropertyPath) (operator : Comparator) (uid : String) :
    Compilation Filter := do
  match ← Compilation.ofLookup (s.hierarchy.categoryWithUid uid) with
  | none => throw (.missingCategory uid)
  | some _ => return .comparison path operator (.text uid)

/-- A category by name, compared by its uid. -/
def categoryByName (operator : Comparator) (name : String) : Compilation Filter := do
  match ← Compilation.ofLookup (s.hierarchy.categoryNamed name) with
  | none => throw (.unknownCategory name)
  | some category =>
    return .comparison (.pair .categories .uid) operator (.text category.uid)

/-- All filters of a list, which must not be empty. -/
def together (filters : List Filter) : Compilation Filter :=
  match Filter.all? filters with
  | some filter => pure filter
  | none => throw (.badList .empty)

/-- A comparison as a filter. -/
def compile : Comparison → Compilation Filter
  | .direct filter => pure filter
  | .views names => do together (← names.mapM s.viewFilter)
  | .virtualPaths paths => do together (← paths.mapM s.virtualPath)
  | .collectionPaths paths => do together (← paths.mapM s.collectionPath)
  | .categoryUids path operator uids => do
    together (← uids.mapM (s.categoryByUid path operator))
  | .categoryName operator name => s.categoryByName operator name

end CalendarQuery.Selection

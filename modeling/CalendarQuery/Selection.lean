import CalendarQuery.Compilation
import CalendarQuery.Filter.Group
import CalendarQuery.Hierarchy.Walk

/-!
# Selecting collections

A virtual path stands for the collection it leads to, narrowed by every filter attached on the way;
a collection path stands for the collection alone. A folder stands for its members.

* `Selection.expand`: a collection as a filter; aliases give way to their targets.
* `Selection.resolve`: a path as a filter.
* `Selection.virtualPath`, `Selection.collectionPath`: the two ways to resolve.

Expanding ends because a collection that is entered is removed from the paths that may still be
entered; one that may not is being expanded already, so its aliases form a cycle.
-/

namespace CalendarQuery

/-- What resolving a path depends on. -/
structure Selection where
  hierarchy : Hierarchy
  /-- The caller chose collections itself: hidden ones count as well. -/
  explicit : Bool
  /-- The virtual paths whose resolution compiles the present expression. -/
  resolving : List String
  /-- Compiles the filter attached to a collection, on behalf of a path: the path, the path of the
  collection, and the expression. -/
  attached : String → String → String → Compilation Filter

namespace Selection

variable (s : Selection)

/-- The children of a folder that an expansion enters. -/
def visible (children : List Collection) : List Collection :=
  children.filter fun c => c.display || s.explicit

/-- The filter attached to a collection, compiled on behalf of a path if `narrow`. -/
def own (narrow : Bool) (vpath : String) (c : Collection) : Compilation (Option Filter) :=
  match c.filter, narrow with
  | some expression, true => some <$> s.attached vpath c.path expression
  | _, _ => pure none

/-- A filter under the name of the alias it was reached through, if the alias has its own. -/
def narrowed (name : String) : (own : Option Filter) → (inner : Filter) → Filter
  | some filter, inner => .and (some name) [filter, inner]
  | none, inner => inner

mutual

/-- A collection as a filter, if it leads anywhere. A calendar and a folder without members stand
for themselves, another folder for any of its members, and an alias for its target, narrowed by the
alias's own filter if `narrow`. -/
def expand (narrow : Bool) (fresh : List String) (c : Collection) :
    Compilation (Option Filter) :=
  if _hm : c.path ∈ fresh then
    match c.kind with
    | .calendar => return some (.inCollection c.path)
    | .folder => do
      let children ← Compilation.ofLookup (s.hierarchy.children c.path)
      let members ← expandEach narrow (Hierarchy.without fresh c.path) (s.visible children)
      return some ((Filter.any? members).getD (.inCollection c.path))
    | .link => do
      let own ← s.own narrow c.path c
      match c.target with
      | none => return none
      | some target =>
        match ← Compilation.ofLookup (s.hierarchy.collection target) with
        | none => return none
        | some d =>
          let inner ← expand narrow (Hierarchy.without fresh c.path) d
          return inner.map (narrowed c.path own)
  else throw (.aliasCycle c.path)
termination_by (fresh.length, 0)
decreasing_by
  all_goals exact Prod.Lex.left _ _ (Hierarchy.length_without_lt _hm)

/-- The filters of the collections that lead anywhere, in order. -/
def expandEach (narrow : Bool) (fresh : List String) : List Collection → Compilation (List Filter)
  | [] => return []
  | c :: cs => do
    let first ← expand narrow fresh c
    let others ← expandEach narrow fresh cs
    return first.toList ++ others
termination_by cs => (fresh.length, cs.length + 1)
decreasing_by
  · exact Prod.Lex.right _ (by simp)
  · exact Prod.Lex.right _ (by simp)

end

/-- Walks along a chain up to the collection that the path names, and compiles the filters attached
on the way if `narrow`. No collection may come twice. -/
def walk (vpath : String) (narrow : Bool) :
    (seen : List String) → List ChainStep → Compilation (List Filter × Option Collection)
  | _, [] => return ([], none)
  | seen, step :: steps =>
    let c := step.collection
    if c.path ∈ seen then throw (.aliasCycle c.path)
    else do
      let own ← s.own narrow vpath c
      if step.terminal && !c.isAlias then return (own.toList, some c)
      else
        let (filters, target) ← walk vpath narrow (c.path :: seen) steps
        return (own.toList ++ filters, target)

/-- The cause of a failed walk. -/
def walkError : LookupError → QueryError
  | .aliasCycle path => .aliasCycle path
  | cause => .lookup cause

/-- A path as a filter: the filters attached on the way, if `narrow`, and the expansion of the
collection it leads to, in a group named after that collection or the alias it was reached
through. -/
def resolve (vpath : String) (narrow : Bool) : Compilation Filter :=
  if vpath ∈ s.resolving then throw (.aliasCycle vpath)
  else do
    let steps ← Compilation.ofExcept ((s.hierarchy.chain vpath).mapError walkError)
    match ← s.walk vpath narrow [] steps with
    | (_, none) => throw (.badVpath vpath)
    | (filters, some target) =>
      match ← s.expand narrow s.hierarchy.paths target with
      | none => throw (.badVpath vpath)
      | some filter =>
        if narrow then
          return .and (some (target.origin.getD target.path)) (filters ++ [filter])
        else return filter

/-- A virtual path, narrowed by the filters attached along it. -/
def virtualPath (vpath : String) : Compilation Filter := s.resolve vpath true

/-- A collection path, without attached filters. -/
def collectionPath (path : String) : Compilation Filter := s.resolve path false

end Selection

end CalendarQuery

import CalendarQuery.Collection
import CalendarQuery.Error

/-!
# Hierarchies

A hierarchy answers questions about collections, categories and views, or fails to answer.

`Hierarchy.paths` lists the paths of all collections that it can answer with. There are finitely
many, which is why a walk that never enters a path twice comes to an end.

A view is one with its own name: `Hierarchy.view` says what this asks of a hierarchy.
-/

namespace CalendarQuery

/-- The answers that compiling asks for. -/
structure Hierarchy where
  /-- The collection at a path. -/
  collection : String → Except LookupError (Option Collection)
  /-- The collections directly below a path. -/
  children : String → Except LookupError (List Collection)
  /-- The category with a name. -/
  categoryNamed : String → Except LookupError (Option Category)
  /-- The category with a uid. -/
  categoryWithUid : String → Except LookupError (Option Category)
  /-- The view that a name, or another word, stands for. It is known by its own name, `View.name`:
  the filter that is remembered for it (`Memos`) is remembered under that name, whichever word it
  was asked for by. So views that differ have names that differ. Two views that were answered under
  one name would share the filter of whichever is computed first. -/
  view : String → Except LookupError (Option View)
  /-- The paths of the collections that answers can hold. -/
  paths : List String
  /-- A collection in an answer has one of the paths. -/
  collection_mem : ∀ {path : String} {c : Collection},
    collection path = .ok (some c) → c.path ∈ paths
  /-- The collections in a list of children have some of the paths. -/
  children_mem : ∀ {path : String} {cs : List Collection} {c : Collection},
    children path = .ok cs → c ∈ cs → c.path ∈ paths

end CalendarQuery

import CalendarQuery.Hierarchy
import CalendarQuery.Text.Slashed

/-!
# Stored hierarchies

A hierarchy held as lists: the collections in the order of their paths, categories and views in the
order in which they were added.

* `Store.add`: adds a collection, or says why it does not fit.
* `Store.find?`, `Store.below`: the collection at a path, and those directly below it.
* `Store.hierarchy`: the answers of the store. The root is there even if it was not added.
-/

namespace CalendarQuery

/-- Why a collection does not fit into a store. -/
inductive StoreError
  | notAbsolute (path : String)
  | noTarget (path : String)
  | duplicate (path : String)
  deriving DecidableEq, Repr

namespace StoreError

/-- The wording. -/
def message : StoreError → String
  | notAbsolute path =>
    "invalid hierarchy: collection path '" ++ path ++ "' is not absolute"
  | noTarget path => "invalid hierarchy: alias '" ++ path ++ "' has no target"
  | duplicate path => "invalid hierarchy: duplicate collection '" ++ path ++ "'"

end StoreError

/-- A stored hierarchy. -/
structure Store where
  /-- In the order of their paths. -/
  collections : List Collection
  categories : List Category
  views : List View
  deriving DecidableEq, Repr

namespace Store

/-- The empty store. -/
def empty : Store := ⟨[], [], []⟩

/-- The collection with exactly the given path. -/
def entry? (s : Store) (path : String) : Option Collection :=
  s.collections.find? fun c => c.path == path

/-- Puts a collection before the first one with a greater path. -/
def insertByPath (c : Collection) : List Collection → List Collection
  | [] => [c]
  | d :: ds => if c.path < d.path then c :: d :: ds else d :: insertByPath c ds

/-- Adds a collection under its path without slashes at the end. -/
def add (s : Store) (c : Collection) : Except StoreError Store :=
  if !Text.isAbsolute c.path then .error (.notAbsolute c.path)
  else
    let c := { c with path := Text.withoutTrailing c.path }
    if c.isAlias && c.target.isNone then .error (.noTarget c.path)
    else if (s.entry? c.path).isSome then .error (.duplicate c.path)
    else .ok { s with collections := insertByPath c s.collections }

/-- Adds collections one after the other. -/
def addAll (s : Store) : List Collection → Except StoreError Store
  | [] => .ok s
  | c :: cs =>
    match s.add c with
    | .error cause => .error cause
    | .ok s => s.addAll cs

/-- Adds a category. -/
def addCategory (s : Store) (c : Category) : Store := { s with categories := s.categories ++ [c] }

/-- Adds a view. -/
def addView (s : Store) (v : View) : Store := { s with views := s.views ++ [v] }

/-- The collection at a path, whatever slashes end it. -/
def find? (s : Store) (path : String) : Option Collection :=
  let key := Text.withoutTrailing path
  match s.entry? key with
  | some c => some c
  | none => if key = "/" then some (.plain "/" .folder) else none

/-- The collections directly below a path, in the order of their paths. -/
def below (s : Store) (path : String) : List Collection :=
  let key := Text.withoutTrailing path
  s.collections.filter fun c => Text.parentPath? c.path == some key

/-- The first category with the name, letter case ignored. -/
def categoryNamed? (s : Store) (name : String) : Option Category :=
  s.categories.find? fun c => Text.sameName c.name name

/-- The first category with the uid. -/
def categoryWithUid? (s : Store) (uid : String) : Option Category :=
  s.categories.find? fun c => c.uid == uid

/-- The first view with the name, and so the only one that is ever answered under it. -/
def view? (s : Store) (name : String) : Option View := s.views.find? fun v => v.name == name

/-- The paths of the root and of all stored collections. -/
def paths (s : Store) : List String := "/" :: s.collections.map Collection.path

theorem find?_mem {s : Store} {path : String} {c : Collection} (h : s.find? path = some c) :
    c.path ∈ s.paths := by
  unfold find? at h
  simp only at h
  split at h
  · rename_i d hd
    simp only [Option.some.injEq] at h
    subst h
    exact List.mem_cons_of_mem _ (List.mem_map_of_mem (List.mem_of_find?_eq_some hd))
  · split at h
    · simp only [Option.some.injEq] at h; subst h; exact List.mem_cons_self
    · simp at h

theorem below_mem {s : Store} {path : String} {c : Collection} (h : c ∈ s.below path) :
    c.path ∈ s.paths :=
  List.mem_cons_of_mem _ (List.mem_map_of_mem (List.mem_filter.mp h).1)

/-- The answers of the store, which never fail. -/
def hierarchy (s : Store) : Hierarchy where
  collection path := .ok (s.find? path)
  children path := .ok (s.below path)
  categoryNamed name := .ok (s.categoryNamed? name)
  categoryWithUid uid := .ok (s.categoryWithUid? uid)
  view name := .ok (s.view? name)
  paths := s.paths
  collection_mem h := find?_mem (by simpa using h)
  children_mem h hc := below_mem (by
    simp only [Except.ok.injEq] at h
    rw [h]; exact hc)

end Store

end CalendarQuery

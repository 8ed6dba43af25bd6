/-!
# Collections, categories and views

What a hierarchy answers with. A collection is a folder of collections, a calendar of entities, or
an alias of another collection; a filter expression may be attached to any of them.
-/

namespace CalendarQuery

/-- What a collection is. -/
inductive CollectionKind
  | folder | calendar
  /-- An alias of another collection. -/
  | link
  deriving DecidableEq, Repr

namespace CollectionKind

/-- The written name. -/
def name : CollectionKind → String
  | folder => "folder"
  | calendar => "calendar"
  | link => "alias"

/-- The kind of the given name; letter case counts. -/
def ofName? (name : String) : Option CollectionKind :=
  [folder, calendar, link].find? fun k => k.name == name

end CollectionKind

/-- A collection. -/
structure Collection where
  path : String
  kind : CollectionKind
  /-- The filter expression imposed on what is reached through the collection. -/
  filter : Option String
  /-- The path that an alias points at. -/
  target : Option String
  /-- The path of the alias through which the collection was reached. -/
  origin : Option String
  /-- A hidden collection is left out when its folder is expanded, unless the selection is
  explicit. -/
  display : Bool
  deriving DecidableEq, Repr

namespace Collection

/-- A displayed collection of the given kind with nothing attached. -/
def plain (path : String) (kind : CollectionKind) : Collection :=
  ⟨path, kind, none, none, none, true⟩

/-- The collection is an alias. -/
def isAlias (c : Collection) : Bool := c.kind == .link

end Collection

/-- A category. -/
structure Category where
  uid : String
  name : String
  href : Option String
  deriving DecidableEq, Repr

/-- A named list of collections, real or virtual. -/
structure View where
  /-- What the view is known by; `Hierarchy.view` says how. -/
  name : String
  collections : List String
  deriving DecidableEq, Repr

end CalendarQuery

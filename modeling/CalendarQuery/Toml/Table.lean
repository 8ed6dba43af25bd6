import CalendarQuery.Toml.Value

/-!
# Tables under construction

A document names the values of a table in any order, and in part by headers, so its tables are put
together step by step. How a table came to be decides what may still be added to it.

* `Node`: a value, a table, or an array of tables.
* `Entries.openTable`, `Entries.openElement`: the tables that headers open.
* `Entries.assign`: a value under a dotted key.
* `Draft.add`: one statement of a document.
* `Entries.toValues`: the values of a finished table.
-/

namespace CalendarQuery.Toml

/-- How a table came to be. -/
inductive Origin
  /-- A header opened it. -/
  | header
  /-- It lies on the way to a table that a header opened. -/
  | implied
  /-- It lies on the way of a dotted key. -/
  | dotted
  deriving DecidableEq, Repr

/-- An entry of a table under construction. -/
inductive Node
  | value (value : Value)
  | table (origin : Origin) (entries : List (String × Node))
  /-- An array of tables, the last of which is open. -/
  | tables (earlier : List (List (String × Node))) (last : List (String × Node))
  deriving Repr

/-- The entries of a table under construction, in order of their first mention. -/
abbrev Entries := List (String × Node)

namespace Entries

/-- The entry of a name. -/
def get? (es : Entries) (name : String) : Option Node :=
  (es.find? fun entry => entry.1 == name).map Prod.snd

/-- The entries with another entry for a name. -/
def set (es : Entries) (name : String) (node : Node) : Entries :=
  match es with
  | [] => [(name, node)]
  | entry :: es => if entry.1 == name then (name, node) :: es else entry :: set es name node

/-- Changes the table at the end of a path of headers. A missing table is implied, an array of
tables is entered at its last element, and a value has no entries. -/
def within (change : Entries → Option Entries) : (path : List String) → Entries → Option Entries
  | [], es => change es
  | name :: path, es =>
    match get? es name with
    | none => (within change path []).map fun sub => set es name (.table .implied sub)
    | some (.table origin sub) =>
      (within change path sub).map fun sub => set es name (.table origin sub)
    | some (.tables earlier last) =>
      (within change path last).map fun last => set es name (.tables earlier last)
    | some (.value _) => none

/-- Opens a table, which must be new or implied. -/
def openTable (name : String) (es : Entries) : Option Entries :=
  match get? es name with
  | none => some (set es name (.table .header []))
  | some (.table .implied sub) => some (set es name (.table .header sub))
  | some _ => none

/-- Opens a further element of an array of tables. -/
def openElement (name : String) (es : Entries) : Option Entries :=
  match get? es name with
  | none => some (set es name (.tables [] []))
  | some (.tables earlier last) => some (set es name (.tables (earlier ++ [last]) []))
  | some _ => none

/-- Adds a value at the end of a dotted path to a table that is `free` to take it. The way leads
through tables that no header opened, and ends in one of dotted keys. -/
def assignAt (last : String) (value : Value) : (free : Bool) → (path : List String) → Entries →
    Option Entries
  | free, [], es =>
    if free && (get? es last).isNone then some (es ++ [(last, .value value)]) else none
  | _, name :: path, es =>
    match get? es name with
    | none => (assignAt last value true path []).map fun sub => set es name (.table .dotted sub)
    | some (.table .header _) => none
    | some (.table origin sub) =>
      (assignAt last value (origin == .dotted) path sub).map fun sub =>
        set es name (.table origin sub)
    | some (.tables earlier current) =>
      (assignAt last value false path current).map fun sub => set es name (.tables earlier sub)
    | some (.value _) => none

/-- Adds a value under a key. -/
def assign (key : Key) (value : Value) (es : Entries) : Option Entries :=
  assignAt key.last value true key.around es

/-- Adds values one after the other. -/
def assignAll (pairs : List (Key × Value)) : Option Entries :=
  pairs.foldlM (fun es pair => assign pair.1 pair.2 es) []

end Entries

mutual

/-- The value of a finished entry. -/
def Node.toValue : Node → Value
  | .value v => v
  | .table _ es => .table (Entries.toValues es)
  | .tables earlier last => .array (Entries.toTables earlier ++ [.table (Entries.toValues last)])

/-- The values of a finished table. -/
def Entries.toValues : List (String × Node) → List (String × Value)
  | [] => []
  | (name, node) :: es => (name, node.toValue) :: Entries.toValues es

/-- The values of finished tables. -/
def Entries.toTables : List (List (String × Node)) → List Value
  | [] => []
  | es :: ess => .table (Entries.toValues es) :: Entries.toTables ess

end

/-- A statement of a document. -/
inductive Statement
  /-- The header of a table. -/
  | table (key : Key)
  /-- The header of an element of an array of tables. -/
  | element (key : Key)
  | pair (key : Key) (value : Value)
  deriving Repr

/-- A document under construction: its table, and the path of the open one. -/
structure Draft where
  root : Entries
  path : List String

namespace Draft

/-- The start of a document. -/
def empty : Draft := ⟨[], []⟩

/-- Adds a statement. -/
def add (d : Draft) : Statement → Option Draft
  | .table key =>
    (Entries.within (Entries.openTable key.last) key.around d.root).map (⟨·, key.names⟩)
  | .element key =>
    (Entries.within (Entries.openElement key.last) key.around d.root).map (⟨·, key.names⟩)
  | .pair key value =>
    (Entries.within (Entries.assign key value) d.path d.root).map (⟨·, d.path⟩)

/-- Adds statements one after the other. -/
def addAll (d : Draft) (statements : List Statement) : Option Draft := statements.foldlM add d

end Draft

end CalendarQuery.Toml

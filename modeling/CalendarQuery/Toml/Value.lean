/-!
# Values of settings documents

What a document in the TOML format holds: a table of values, nested to any depth. Floats and
times are kept as they are written, since no setting has such a value.

* `Value`: a value.
* `Key`: the name of a value, with dots for the tables around it.
* `Value.text?`, `Value.natural?`, `Value.list?`: the value as something else, if it is that.
* `Value.record?`, `Record.required`, `Record.optional`, `Record.withDefault`: the fields of a
  record. A record is a table, whose other entries do not matter, or an array that gives the fields
  in order. A time is a record that has no field.
-/

namespace CalendarQuery.Toml

/-- A value. -/
inductive Value
  | text (value : String)
  | integer (value : Int64)
  | float (written : String)
  | boolean (value : Bool)
  | time (written : String)
  | array (items : List Value)
  | table (entries : List (String × Value))
  deriving Repr

/-- A name after the names of the tables around it, the outermost first. -/
structure Key where
  around : List String
  last : String
  deriving DecidableEq, Repr

/-- The key of one or more names. -/
def Key.ofList? (names : List String) : Option Key :=
  names.getLast?.map fun last => ⟨names.dropLast, last⟩

/-- All names of a key. -/
def Key.names (key : Key) : List String := key.around ++ [key.last]

/-- What may have the fields of a record. -/
inductive Record
  | named (entries : List (String × Value))
  | positional (items : List Value)
  deriving Repr

namespace Value

/-- A text. -/
def text? : Value → Option String
  | text s => some s
  | _ => none

/-- A truth value. -/
def boolean? : Value → Option Bool
  | boolean b => some b
  | _ => none

/-- An integer that is not negative. -/
def natural? : Value → Option Nat
  | integer n => if 0 ≤ n then some n.toNatClampNeg else none
  | _ => none

/-- An array of such items. -/
def list? {α : Type} (item : Value → Option α) : Value → Option (List α)
  | array items => items.mapM item
  | _ => none

/-- A choice between names: a text, or a table whose one entry has the name and is empty. -/
def choice? {α : Type} (ofName? : String → Option α) : Value → Option α
  | text s => ofName? s
  | table [(name, array [])] => ofName? name
  | table [(name, table [])] => ofName? name
  | _ => none

/-- A record. -/
def record? : Value → Option Record
  | table entries => some (.named entries)
  | array items => some (.positional items)
  | time _ => some (.named [])
  | _ => none

end Value

namespace Record

variable {α : Type}

/-- The value of a field, given the place of the field in the record and its name. -/
def field? (r : Record) (position : Nat) (name : String) : Option Value :=
  match r with
  | named entries => (entries.find? fun entry => entry.1 == name).map Prod.snd
  | positional items => items[position]?

/-- A field that must be there. -/
def required (r : Record) (position : Nat) (name : String) (read : Value → Option α) : Option α :=
  (r.field? position name).bind read

/-- A field with a value that holds when it is not there. -/
def withDefault (r : Record) (position : Nat) (name : String) (read : Value → Option α)
    (default : α) : Option α :=
  match r.field? position name with
  | some v => read v
  | none => some default

/-- A field that need not be there. -/
def optional (r : Record) (position : Nat) (name : String) (read : Value → Option α) :
    Option (Option α) :=
  r.withDefault position name (fun v => (read v).map some) none

end Record

end CalendarQuery.Toml

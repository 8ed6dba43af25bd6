import CalendarQuery.CommandLine.Profile
import CalendarQuery.Document
import CalendarQuery.Filter.Render
import CalendarQuery.Hierarchy.Store.Document

/-!
# What the program says

* `Report`: the texts a run gives out, and its exit code.
* `CommandError`: why a command fails, with the wording, the exit code, and the code in documents.
* `paint`: a text between the marks of a terminal color.
-/

namespace CalendarQuery.CommandLine

/-- What a run of the program leaves behind besides files. -/
structure Report where
  code : Nat
  output : String
  errors : String
  deriving DecidableEq, Repr

/-- Why a command fails. -/
inductive CommandError
  | compile (source : String) (cause : QueryError)
  /-- The file of the hierarchy cannot be read. -/
  | unreadableHierarchy (path : String) (cause : FileError)
  | hierarchy (cause : DocumentError)
  | profile (cause : ProfileError)
  deriving DecidableEq, Repr

namespace CommandError

/-- The wording. -/
def message : CommandError → String
  | compile source cause => Outcome.failureText source cause
  | unreadableHierarchy path cause =>
    "hierarchy error: failed to read hierarchy file '" ++ path ++ "': " ++ cause.message
  | hierarchy .unreadable => "hierarchy error: failed to parse hierarchy: not a hierarchy"
  | hierarchy (.inconsistent cause) => "hierarchy error: " ++ cause.message
  | profile cause => "configuration error: " ++ cause.message

/-- The code in documents. -/
def code : CommandError → String
  | compile .. => "COMPILE_ERROR"
  | unreadableHierarchy .. | hierarchy _ => "HIERARCHY_ERROR"
  | profile _ => "CONFIG_ERROR"

/-- The exit code. -/
def exitCode : CommandError → Nat
  | compile .. => 1
  | unreadableHierarchy .. | hierarchy _ | profile _ => 5

/-- The error as a document. -/
def document (e : CommandError) : Json :=
  .object [("error", .object [("code", .text e.code), ("message", .text e.message)])]

end CommandError

/-! ## Colors -/

/-- A way to show a text on a terminal. -/
inductive Paint
  | cyan | yellow | green | bold | dim
  deriving DecidableEq, Repr

namespace Paint

/-- The numbers that switch it on and off. -/
def codes : Paint → String × String
  | cyan => ("36", "39")
  | yellow => ("33", "39")
  | green => ("32", "39")
  | bold => ("1", "0")
  | dim => ("2", "0")

end Paint

/-- A text between the marks that switch a paint on and off, if the terminal shows colors. -/
def paint (color : Bool) (p : Paint) (text : String) : String :=
  if color then "\x1b[" ++ p.codes.1 ++ "m" ++ text ++ "\x1b[" ++ p.codes.2 ++ "m" else text

/-! ## Answers -/

/-- Sort keys, one to a line. -/
def sortText (color : Bool) (keys : List SortKey) : String :=
  if keys.isEmpty then paint color .dim "No sort terms" ++ "\n"
  else String.join <| keys.map fun k =>
    k.path.text ++ ":" ++ paint color .yellow k.direction ++ "\n"

/-- Sort keys as a document. -/
def sortDocument (keys : List SortKey) : Json :=
  .object [("terms", .array <| keys.map fun k =>
    .object [("property", .text k.path.text), ("direction", .text k.direction)])]

/-- A profile for readers. -/
def profileText (color : Bool) (path : String) (isThere : Bool) (p : Profile) : String :=
  paint color .bold (paint color .green "Configuration") ++ "\n\n" ++
    "File: " ++ path ++ "\n" ++
    "Exists: " ++ toString isThere ++ "\n\n" ++
    (match p.hierarchy with
      | some h => "hierarchy: " ++ h ++ "\n\n"
      | none => "") ++
    "[compiler]\n" ++
    "  max_alias_depth: " ++ Text.padded 1 p.limits.maxAliasDepth ++ "\n" ++
    "  max_expression_length: " ++ Text.padded 1 p.limits.maxExpressionLength ++ "\n" ++
    "  default_sort_ascending: " ++ toString p.limits.defaultSortAscending ++ "\n"

/-- A profile as a document, in the order of the field names. -/
def profileDocument (path : String) (isThere : Bool) (p : Profile) : Json :=
  let limits : Json := .object [
    ("default_sort_ascending", .bool p.limits.defaultSortAscending),
    ("max_alias_depth", .number p.limits.maxAliasDepth),
    ("max_expression_length", .number p.limits.maxExpressionLength)]
  let config : Json := .object <|
    ("compiler", limits) :: Json.optionalField "hierarchy" (p.hierarchy.map .text) ++
      [("version", .number Profile.version)]
  .object [("config", config), ("exists", .bool isThere), ("path", .text path)]

/-- The place of a profile as a document. -/
def pathDocument (path : String) (isThere : Bool) : Json :=
  .object [("exists", .bool isThere), ("path", .text path)]

/-- A changed key as a document. -/
def changeDocument (path key value : String) : Json :=
  .object [("key", .text key), ("path", .text path), ("status", .text "success"),
    ("value", .text value)]

end CalendarQuery.CommandLine

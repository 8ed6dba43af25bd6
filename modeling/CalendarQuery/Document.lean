import CalendarQuery.Compiler
import CalendarQuery.Json

/-!
# Filters and outcomes as documents

The form in which a compiled filter, a list of sort keys and the outcome of a compilation are
handed to other programs. A field that has no value is left out, except the bounds of a time range,
which are null when open.
-/

namespace CalendarQuery

/-- A field that is left out without a value. -/
def Json.optionalField (name : String) (value : Option Json) : List (String × Json) :=
  (value.map fun v => (name, v)).toList

/-- A property and its index. -/
def PathSegment.document (s : PathSegment) : Json :=
  .object <| ("property", .text s.property.code) ::
    (Json.optionalField "int_index" (s.number.map fun n => .number n.toInt) ++
      Json.optionalField "str_index" (s.key.map .text))

/-- The segments in order. -/
def PropertyPath.document (path : PropertyPath) : Json :=
  .array (path.segments.map PathSegment.document)

/-- The operand itself. -/
def Operand.document : Operand → Json
  | text s => .text s
  | number n => .number n.toInt

/-- A bound of a time range. -/
def Stamp.boundDocument : Option Stamp → Json
  | some t => .text t.extended
  | none => .null

mutual

/-- A filter, tagged with its kind. -/
def Filter.document : Filter → Json
  | .and name children =>
    .object <| ("type", .text "and") :: Json.optionalField "name" (name.map .text) ++
      [("children", .array (documents children))]
  | .or children => .object [("type", .text "or"), ("children", .array (documents children))]
  | .compare path operator operand exact negate caseless isPrefix =>
    .object [("type", .text "compare"), ("path", path.document),
      ("operator", .text operator.code), ("value", operand.document), ("exact", .bool exact),
      ("negate", .bool negate), ("caseless", .bool caseless), ("prefix_match", .bool isPrefix)]
  | .presence path isPresent =>
    .object [("type", .text "presence"), ("path", path.document), ("is_present", .bool isPresent)]
  | .entity kind => .object [("type", .text "entityType"), ("name", .text kind.name)]
  | .timeRange path first last =>
    .object [("type", .text "timeRange"), ("path", path.document),
      ("start", Stamp.boundDocument first), ("end", Stamp.boundDocument last)]
  | .view name filter =>
    .object [("type", .text "view"), ("name", .text name), ("filter", filter.document)]

/-- The filters of a list. -/
def Filter.documents : List Filter → List Json
  | [] => []
  | f :: fs => f.document :: documents fs

end

/-- A path and its direction. -/
def SortKey.document (k : SortKey) : Json :=
  .object [("path", k.path.document), ("ascending", .bool k.ascending)]

/-- An outcome: whether it is one, and the result or the message. -/
def Outcome.document : Outcome → Json
  | filter f => .object [("ok", .bool true), ("filter", f.document)]
  | sortKeys ks =>
    .object [("ok", .bool true), ("sort_terms", .array (ks.map SortKey.document))]
  | failed source cause =>
    .object [("ok", .bool false), ("message", .text (failureText source cause))]

end CalendarQuery

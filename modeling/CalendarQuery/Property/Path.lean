import CalendarQuery.Property
import CalendarQuery.Text.Decimal
import CalendarQuery.Text.Quoted

/-!
# Property paths

A path is one or more segments, each a property with an optional index, written with dots:
`dtstart.tzid`, `attendee[2].cn`, `x-prop["X-COLOR"]`.

* `PropertyPath.text`: the written form.
* `PropertyPath.isExactly`: a test for given properties that ignores indexes.
-/

namespace CalendarQuery

/-- A segment of a path. -/
structure PathSegment where
  property : Property
  /-- A position, as in `attendee[2]`. -/
  number : Option Int64
  /-- A key, as in `x-prop["X-COLOR"]`. -/
  key : Option String
  deriving DecidableEq, Repr

/-- A path of one or more segments. -/
structure PropertyPath where
  head : PathSegment
  tail : List PathSegment
  deriving DecidableEq, Repr

namespace PathSegment

/-- A segment without an index. -/
def plain (p : Property) : PathSegment := ⟨p, none, none⟩

/-- The index in brackets; a position goes before a key. -/
def indexText (s : PathSegment) : String :=
  match s.number, s.key with
  | some n, _ => "[" ++ Text.decimal n.toInt ++ "]"
  | none, some k => "[" ++ Text.quoted k ++ "]"
  | none, none => ""

/-- The written form. -/
def text (s : PathSegment) : String := s.property.spelling ++ s.indexText

end PathSegment

namespace PropertyPath

/-- The path of the given segments, if there are any. -/
def ofList? : List PathSegment → Option PropertyPath
  | [] => none
  | s :: ss => some ⟨s, ss⟩

/-- A path of one property without index. -/
def single (p : Property) : PropertyPath := ⟨.plain p, []⟩

/-- A path of two properties without index. -/
def pair (p q : Property) : PropertyPath := ⟨.plain p, [.plain q]⟩

/-- The segments in order. -/
def segments (path : PropertyPath) : List PathSegment := path.head :: path.tail

/-- The property of the first segment, which decides how a comparison is read. -/
def first (path : PropertyPath) : Property := path.head.property

/-- The number of segments. -/
def depth (path : PropertyPath) : Nat := path.segments.length

/-- The path has exactly these properties, whatever the indexes. -/
def isExactly (path : PropertyPath) (ps : List Property) : Bool :=
  path.segments.map PathSegment.property == ps

/-- The written form: the segments with dots between them. -/
def text (path : PropertyPath) : String := ".".intercalate (path.segments.map PathSegment.text)

end PropertyPath

end CalendarQuery

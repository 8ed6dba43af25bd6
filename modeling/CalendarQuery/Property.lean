import CalendarQuery.Text.Ascii
import CalendarQuery.Text.EditDistance

/-!
# Properties

The calendar properties that an expression may name, and their spellings.

* `Property.ofName?`: the property with a given spelling, letter case ignored.
* `Property.suggest`: the spelling closest to an unknown name.
* `Property.maxDepth`, `Property.isSub`, `Property.mayFollow`: where a property may stand in a path.
-/

namespace CalendarQuery

/-- A property of a calendar entity, or a part of one. -/
inductive Property
  | entityType | collection | view | vpath
  | owner | creator | summary | description | location | categories | uid | href
  | dtstart | dtend | due | created | lastModified | status | classification | priority | url
  | organizer | attendee | xProp
  | utc | local | tzid | cn | value | name
  deriving DecidableEq, Repr

namespace Property

/-- All properties, in the order of the name table. -/
def all : List Property :=
  [.entityType, .collection, .view, .vpath, .owner, .creator, .summary, .description, .location,
    .categories, .uid, .href, .dtstart, .dtend, .due, .created, .lastModified, .status,
    .classification, .priority, .url, .organizer, .attendee, .xProp, .utc, .local, .tzid, .cn,
    .value, .name]

theorem mem_all (p : Property) : p ∈ all := by cases p <;> decide

/-- The spelling that is written. -/
def spelling : Property → String
  | .entityType => "entity_type"
  | .collection => "colpath"
  | .view => "view"
  | .vpath => "vpath"
  | .owner => "owner"
  | .creator => "creator"
  | .summary => "summary"
  | .description => "description"
  | .location => "location"
  | .categories => "categories"
  | .uid => "uid"
  | .href => "href"
  | .dtstart => "dtstart"
  | .dtend => "dtend"
  | .due => "due"
  | .created => "created"
  | .lastModified => "lastmod"
  | .status => "status"
  | .classification => "class"
  | .priority => "priority"
  | .url => "url"
  | .organizer => "organizer"
  | .attendee => "attendee"
  | .xProp => "x-prop"
  | .utc => "utc"
  | .local => "local"
  | .tzid => "tzid"
  | .cn => "cn"
  | .value => "value"
  | .name => "name"

/-- The other spelling that is read, if there is one. -/
def alternative : Property → Option String
  | .collection => "collection"
  | .categories => "category"
  | .dtstart => "start"
  | .dtend => "end"
  | .lastModified => "last_modified"
  | .xProp => "xprop"
  | _ => none

/-- The code under which a property appears in a result document. -/
def code : Property → String
  | .entityType => "ENTITY_TYPE"
  | .collection => "COLLECTION"
  | .view => "VIEW"
  | .vpath => "VPATH"
  | .owner => "OWNER"
  | .creator => "CREATOR"
  | .summary => "SUMMARY"
  | .description => "DESCRIPTION"
  | .location => "LOCATION"
  | .categories => "CATEGORIES"
  | .uid => "UID"
  | .href => "HREF"
  | .dtstart => "DTSTART"
  | .dtend => "DTEND"
  | .due => "DUE"
  | .created => "CREATED"
  | .lastModified => "LAST_MODIFIED"
  | .status => "STATUS"
  | .classification => "CLASS"
  | .priority => "PRIORITY"
  | .url => "URL"
  | .organizer => "ORGANIZER"
  | .attendee => "ATTENDEE"
  | .xProp => "X_PROP"
  | .utc => "UTC"
  | .local => "LOCAL"
  | .tzid => "TZID"
  | .cn => "CN"
  | .value => "VALUE"
  | .name => "NAME"

/-- Every spelling that is read with its property, the written one first. -/
def table : List (String × Property) :=
  all.flatMap fun p => (p.spelling :: p.alternative.toList).map fun s => (s, p)

/-- The property with the given spelling, letter case ignored. -/
def ofName? (name : String) : Option Property :=
  (table.find? fun entry => Text.sameName entry.1 name).map Prod.snd

/-- The property with the given code. -/
def ofCode? (code : String) : Option Property := all.find? fun p => p.code == code

/-- The largest edit distance at which a spelling is suggested. -/
def suggestionReach : Nat := 3

/-- The spelling nearest to `name`, the first of several, if it is near enough and not `name`. -/
def suggest (name : String) : Option String :=
  let query := (Text.lower name).toList
  let ranked := table.map fun entry => (entry.1, Text.editDistance query entry.1.toList)
  match ranked with
  | [] => none
  | first :: others =>
    let best := others.foldl (fun least entry => if entry.2 < least.2 then entry else least) first
    if 0 < best.2 && best.2 ≤ suggestionReach then some best.1 else none

/-- The number of segments a path that starts with the property may have. -/
def maxDepth : Property → Nat
  | .location | .categories | .dtstart | .dtend | .due | .organizer | .attendee => 2
  | _ => 1

/-- A property that is only a part of another one. -/
def isSub : Property → Bool
  | .utc | .local | .tzid | .cn | .value | .name => true
  | _ => false

/-- A property that may stand after the first segment of a path. -/
def mayFollow (p : Property) : Bool := p.isSub || p == .uid || p == .href

end Property

end CalendarQuery

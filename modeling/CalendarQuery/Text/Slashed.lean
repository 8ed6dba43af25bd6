/-!
# Paths written with slashes

Collections are named by absolute paths such as `/public/calendars`. Slashes at the end of a path
do not count, except in the path `/` of the root.

* `Text.isAbsolute`: the path starts with a slash.
* `Text.withoutTrailing`: the path under which a collection is stored.
* `Text.pathSegments`: the names between the slashes.
* `Text.joinPath`, `Text.parentPath?`: one step down, one step up.
-/

namespace CalendarQuery.Text

/-- The path starts with a slash. -/
def isAbsolute (path : String) : Bool := path.toList.head? == some '/'

/-- The characters without the slashes at their end. -/
def dropTrailing (cs : List Char) : List Char := (cs.reverse.dropWhile (· == '/')).reverse

/-- The path without the slashes at its end; a path of one byte stays as it is. -/
def withoutTrailing (path : String) : String :=
  if 1 < path.utf8ByteSize then String.ofList (dropTrailing path.toList) else path

/-- The pieces between slashes, empty ones included. -/
def splitSlashes : List Char → List (List Char)
  | [] => [[]]
  | c :: cs =>
    match splitSlashes cs with
    | [] => [[c]]
    | piece :: pieces => if c = '/' then [] :: piece :: pieces else (c :: piece) :: pieces

/-- The names between the slashes of a path. -/
def pathSegments (path : String) : List String :=
  ((splitSlashes path.toList).filter fun piece => !piece.isEmpty).map String.ofList

/-- The path of `name` below `parent`, with one slash between them. -/
def joinPath (parent name : String) : String :=
  if parent.toList.getLast? == some '/' then parent ++ name else parent ++ "/" ++ name

/-- The path one step up; the root, and a path without slashes, have none. -/
def parentPath? (path : String) : Option String :=
  let cs := dropTrailing path.toList
  let above := (cs.reverse.dropWhile (· != '/')).reverse
  if above.isEmpty then none
  else if above.length = 1 then some "/"
  else some (String.ofList above.dropLast)

end CalendarQuery.Text

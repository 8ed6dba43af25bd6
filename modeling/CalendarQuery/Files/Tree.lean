import CalendarQuery.Files

/-!
# Trees of files

Files and folders below one root, as a value.

* `FileTree.locate`: the target of a path.
* `FileTree.lookup`: what a path leads to.
* `FileTree.read`, `FileTree.write`, `FileTree.createFolder`: the operations.
* `FileTree.files`: the same as operations of programs.

A path is walked from left to right, from the root or from the current folder. Each name but the
last must lead to a folder that is there, also where `..` leaves that folder at once. The last name
need not be there; if it is `.` or `..`, or if there is none, the path leads to a folder that the
walk has been in.
-/

namespace CalendarQuery

/-- What a name stands for. -/
inductive FileEntry
  | file (text : String)
  | folder
  deriving DecidableEq, Repr

/-- A tree of files: what lies at each list of names from the root, and the folder in which paths
without a slash at their start begin. The root and the folders around the current one are there. -/
structure FileTree where
  current : List String
  entries : List (List String × FileEntry)
  deriving DecidableEq, Repr

/-- Where a path leads. -/
inductive FileTree.Target
  /-- A folder that is there. -/
  | folder
  /-- A name in a folder that is there. -/
  | name (place : List String) (name : String)
  deriving DecidableEq, Repr

namespace FileTree

/-- A tree without files. -/
def empty (current : List String) : FileTree := ⟨current, []⟩

/-- What lies at a list of names. -/
def entry? (t : FileTree) (names : List String) : Option FileEntry :=
  if names.isPrefixOf t.current then some .folder
  else (t.entries.find? fun entry => entry.1 == names).map Prod.snd

/-- The tree with something else at a list of names. -/
def put (t : FileTree) (names : List String) (entry : FileEntry) : FileTree :=
  { t with entries := t.entries.filter (fun e => e.1 != names) ++ [(names, entry)] }

/-- What a name stands for in a folder. -/
def entryIn (t : FileTree) (place : List String) (name : String) :
    Except FileError (Option FileEntry) :=
  if longestName < name.utf8ByteSize then .error .nameTooLong
  else .ok (t.entry? (place ++ [name]))

/-- The folder to which a name leads from a folder. The root lies in itself. -/
def enter (t : FileTree) (place : List String) (name : String) :
    Except FileError (List String) := do
  if name = "." then return place
  else if name = ".." then return place.dropLast
  else
    match ← t.entryIn place name with
    | none => throw .missing
    | some (.file _) => throw .notFolder
    | some .folder => return place ++ [name]

/-- The target of a path. -/
def locate (t : FileTree) (path : String) : Except FileError Target := do
  checkPath path
  let start := if Text.isAbsolute path then [] else t.current
  match (Text.pathSegments path).reverse with
  | [] => return .folder
  | last :: before =>
    let place ← before.reverse.foldlM t.enter start
    if last = "." || last = ".." then return .folder else return .name place last

/-- A path whose end asks for a folder. -/
def endsInSlash (path : String) : Bool := path.toList.getLast? == some '/'

/-- What a path leads to. -/
def lookup (t : FileTree) (path : String) : Except FileError FileEntry := do
  match ← t.locate path with
  | .folder => return .folder
  | .name place name =>
    match ← t.entryIn place name with
    | none => throw .missing
    | some (.file text) => if endsInSlash path then throw .notFolder else return .file text
    | some .folder => return .folder

/-- The text of a file. -/
def read (t : FileTree) (path : String) : Except FileError String := do
  match ← t.lookup path with
  | .file text => return text
  | .folder => throw .isFolder

/-- The tree with a new text in a file. -/
def write (t : FileTree) (path text : String) : Except FileError FileTree := do
  match ← t.locate path with
  | .folder => throw .isFolder
  | .name place name =>
    if endsInSlash path then throw .isFolder
    else if (← t.entryIn place name) = some .folder then throw .isFolder
    else return t.put (place ++ [name]) (.file text)

/-- The tree with a folder that was not there. -/
def createFolder (t : FileTree) (path : String) : Except FileError FileTree := do
  match ← t.locate path with
  | .folder => throw .alreadyThere
  | .name place name =>
    if (← t.entryIn place name).isSome then throw .alreadyThere
    else return t.put (place ++ [name]) .folder

/-- The files below the current folder with their paths from there. -/
def texts (t : FileTree) : List (String × String) :=
  t.entries.filterMap fun (names, entry) =>
    match entry with
    | .file text =>
      if t.current.isPrefixOf names then
        some ("/".intercalate (names.drop t.current.length), text)
      else none
    | .folder => none

/-! ## Programs on trees -/

/-- Programs whose effects are on a tree. -/
abbrev Run := StateM FileTree

/-- An operation that changes the tree if it succeeds. -/
def change (f : FileTree → Except FileError FileTree) : Run (Except FileError Unit) := do
  match f (← get) with
  | .ok t => set t; return .ok ()
  | .error cause => return .error cause

/-- The operations on a tree. -/
def files : Files Run where
  isThere path := do return ((← get).lookup path).isOk
  isFolder path := do return (← get).lookup path matches .ok .folder
  read path := do return (← get).read path
  write path text := change fun t => t.write path text
  createFolder path := change fun t => t.createFolder path

/-- The tree with a file, in folders that are made for it. -/
def withFile (t : FileTree) (path text : String) : FileTree :=
  let program : Run (Except FileError Unit) := do
    match ← files.createFolders ((Text.folderOf? path).getD "") with
    | .ok () => files.write path text
    | .error cause => return .error cause
  (program.run t).2

end FileTree

end CalendarQuery

import CalendarQuery.Text.Slashed

/-!
# Files

What a program may do with files, whatever holds them, and how the paths of files are put together.

* `FileError`: why an operation fails.
* `checkPath`: what no path may be.
* `Files`: the operations.
* `Files.createFolders`: makes a folder and the folders around it.
* `Text.filePath`: a path and a name below it.
* `Text.folderOf?`: the path of the folder of a file.

Between its slashes a path has parts. An empty part and the part `.` lead nowhere; they count in the
length of the path, and in nothing else.
-/

namespace CalendarQuery

/-- Why a file operation fails. -/
inductive FileError
  | missing | notFolder | isFolder | alreadyThere | nameTooLong
  /-- No path holds the character with the number zero. -/
  | zeroByte
  /-- The bytes of a file are no text. -/
  | notText
  /-- The system gives another reason. -/
  | other (reason : String)
  deriving DecidableEq, Repr

/-- The wording. -/
def FileError.message : FileError → String
  | missing => "No such file or directory (os error 2)"
  | notFolder => "Not a directory (os error 20)"
  | isFolder => "Is a directory (os error 21)"
  | alreadyThere => "File exists (os error 17)"
  | nameTooLong => "File name too long (os error 36)"
  | zeroByte => "file name contained an unexpected NUL byte"
  | notText => "stream did not contain valid UTF-8"
  | other reason => reason

/-- The most bytes of a path. -/
def longestPath : Nat := 4095

/-- The most bytes of a name in a path. -/
def longestName : Nat := 255

/-- Refuses what is no path, before any folder is looked at. -/
def checkPath (path : String) : Except FileError Unit :=
  if path.toList.contains '\x00' then .error .zeroByte
  else if path.isEmpty then .error .missing
  else if longestPath < path.utf8ByteSize then .error .nameTooLong
  else .ok ()

namespace Text

/-- The path of a name below a folder; the empty path is the current folder. -/
def filePath (folder name : String) : String :=
  if folder.isEmpty then name else joinPath folder name

/-- The parts of a path between its slashes, the last one first. -/
def reversedParts (path : String) : List String :=
  ((splitSlashes path.toList).map String.ofList).reverse

/-- The path with these parts. -/
def ofReversedParts (parts : List String) : String := "/".intercalate parts.reverse

/-- A part that leads nowhere. -/
def isIdlePart (part : String) : Bool := part.isEmpty || part == "."

/-- The folder in which the last name of a path lies; the empty path and the root lie nowhere. -/
def folderOf? (path : String) : Option String :=
  match (reversedParts path).dropWhile isIdlePart with
  | [] => if path.isEmpty || isAbsolute path then none else some ""
  | _ :: around =>
    let folder := ofReversedParts (around.dropWhile isIdlePart)
    some (if folder.isEmpty && isAbsolute path then "/" else folder)

end Text

/-- The operations on files, in a monad of effects. -/
structure Files (m : Type → Type) where
  /-- A file or folder is there. -/
  isThere : String → m Bool
  /-- A folder is there. -/
  isFolder : String → m Bool
  /-- The text of a file. -/
  read : String → m (Except FileError String)
  /-- Replaces the text of a file, or starts a file with it. -/
  write : String → String → m (Except FileError Unit)
  /-- Makes a folder that was not there, in a folder that is. -/
  createFolder : String → m (Except FileError Unit)

namespace Files

variable {m : Type → Type} [Monad m]

/-- Makes a folder, unless it is there. -/
def ensureFolder (files : Files m) (path : String) : m (Except FileError Unit) := do
  match ← files.createFolder path with
  | .ok () => return .ok ()
  | .error cause => if ← files.isFolder path then return .ok () else return .error cause

/-- Makes the folder with these parts, and first the folders around it if one of them is missing.
What was made stays if a later one cannot be made. -/
def ensureParts (files : Files m) : (reversed : List String) → m (Except FileError Unit)
  | [] => pure (.ok ())
  | part :: around =>
    if Text.isIdlePart part then ensureParts files around
    else do
      let path := Text.ofReversedParts (part :: around)
      match ← files.ensureFolder path with
      | .error .missing =>
        match ← ensureParts files around with
        | .ok () => files.ensureFolder path
        | .error cause => return .error cause
      | outcome => return outcome

/-- Makes a folder and the folders around it, unless they are there. -/
def createFolders (files : Files m) (path : String) : m (Except FileError Unit) :=
  files.ensureParts (Text.reversedParts path)

end Files

end CalendarQuery

import CalendarQuery.CommandLine.Run

/-!
# The program

The command line on the files and in the environment of the system.
-/

namespace CalendarQuery.CommandLine

/-- The code of an error is this number. Some operations give it out negated. -/
def isCode (code number : UInt32) : Bool := code == number || code == 0 - number

/-- The reason for which the system refuses an operation. -/
def fileError : IO.Error → FileError
  | .noFileOrDirectory .. => .missing
  | .alreadyExists .. => .alreadyThere
  | .inappropriateType _ code _ => if isCode code 21 then .isFolder else .notFolder
  | e@(.invalidArgument _ code _) => if isCode code 36 then .nameTooLong else .other (toString e)
  | e => .other (toString e)

/-- An operation on a path that the system may refuse. -/
def attempt {α : Type} (path : String) (action : IO α) : IO (Except FileError α) := do
  match checkPath path with
  | .error cause => return .error cause
  | .ok () => try return .ok (← action) catch e => return .error (fileError e)

/-- The files of the system. -/
def systemFiles : Files IO where
  isThere path := do return (← attempt path (IO.FS.Handle.mk path .read)).isOk
  isFolder path := do
    return (← attempt path (IO.FS.Handle.mk (Text.filePath path ".") .read)).isOk
  read path := do
    match ← attempt path (IO.FS.readBinFile path) with
    | .error cause => return .error cause
    | .ok bytes => return (String.fromUTF8? bytes).elim (.error .notText) .ok
  write path text := attempt path (IO.FS.writeFile path text)
  createFolder path := attempt path (IO.FS.createDir path)

end CalendarQuery.CommandLine

open CalendarQuery.CommandLine in
/-- Runs the program. Of the account, only what the environment says is known. -/
def main (args : List String) : IO UInt32 := do
  let names := ["CFQ_CONFIG", "XDG_CONFIG_HOME", "HOME"]
  let values ← names.mapM fun name => do return (name, ← IO.getEnv name)
  let environment : Environment :=
    { value? := fun name => (values.find? fun entry => entry.1 == name).bind Prod.snd
      accountFolder? := none }
  let report ← run systemFiles environment args
  IO.print report.output
  IO.eprint report.errors
  return UInt32.ofNat report.code

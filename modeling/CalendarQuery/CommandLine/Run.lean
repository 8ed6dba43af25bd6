import CalendarQuery.CommandLine.Arguments
import CalendarQuery.CommandLine.Report

/-!
# Runs of the program

The commands, over any files: `run` answers to the arguments of one run.

* `Environment`: what the surroundings of a run say.
* `profilePath`: the file that holds the profile.
* `loadProfile`, `saveProfile`: the profile and its file.
* `execute`: a command, which gives out a text or fails.
* `run`: all of it.

A missing file is the standard profile. Setting a key reads the profile, changes it, and writes it
back; only the last step changes a file, so a key or value that is refused leaves everything as it
was.
-/

namespace CalendarQuery.CommandLine

variable {m : Type → Type} [Monad m]

/-- What a command gives out: a text, and the error that ends it. -/
structure Answer where
  output : String
  error : Option CommandError
  deriving DecidableEq, Repr

namespace Answer

/-- A success that says something. -/
def say (output : String) : Answer := ⟨output, none⟩

/-- A failure. -/
def fail (error : CommandError) : Answer := ⟨"", some error⟩

end Answer

/-- A document on lines of its own. -/
def documentLines (document : Json) : String := document.pretty ++ "\n"

/-- What the surroundings of a run say. -/
structure Environment where
  /-- The value of a name. -/
  value? : String → Option String
  /-- The folder of the account that runs the program, in the records of the system. -/
  accountFolder? : Option String

/-- The folder of the user: the one that the environment names, or else that of the account. -/
def Environment.home? (e : Environment) : Option String :=
  (e.value? "HOME").filter (!·.isEmpty) <|> e.accountFolder?

/-- The file that holds the profile: the one that is asked for, or else the first that the
environment gives. -/
def profilePath (e : Environment) (asked : Option String) : Option String :=
  let below (folder : String) : String :=
    Text.filePath (Text.filePath folder "cfq") "config.toml"
  asked <|> e.value? "CFQ_CONFIG" <|> (e.value? "XDG_CONFIG_HOME").map below <|>
    e.home?.map fun home => below (Text.filePath home ".config")

/-- The profile in a file; a missing file holds the standard one. -/
def loadProfile (files : Files m) (path : String) : m (Except ProfileError Profile) := do
  if ← files.isThere path then
    match ← files.read path with
    | .error cause => return .error (.unreadable cause)
    | .ok text =>
      match Profile.ofDocument? text with
      | some p => return .ok p
      | none => return .error .malformed
  else return .ok .standard

/-- Makes the folder of a profile. -/
def makeFolder (files : Files m) (path : String) : m (Except ProfileError Unit) := do
  match Text.folderOf? path with
  | none => return .ok ()
  | some folder => return (← files.createFolders folder).mapError .folder

/-- Writes a profile to its file. -/
def saveProfile (files : Files m) (path : String) (p : Profile) : m (Except ProfileError Unit) := do
  match ← makeFolder files path with
  | .error cause => return .error cause
  | .ok () =>
    match p.document with
    | .error cause => return .error (.inexpressible cause)
    | .ok text => return (← files.write path text).mapError .unwritable

/-- The store in the file of a hierarchy; without a file it is empty. -/
def loadStore (files : Files m) (path : Option String) : m (Except CommandError Store) := do
  match path with
  | none => return .ok .empty
  | some path =>
    match ← files.read path with
    | .error cause => return .error (.unreadableHierarchy path cause)
    | .ok text => return (Store.ofDocument text).mapError .hierarchy

/-- Compiles a filter expression. -/
def parse (files : Files m) (r : Request) (p : Profile) (expression : String)
    (hierarchy : Option String) (explicit : Bool) (source : String) : m Answer := do
  match ← loadStore files (hierarchy <|> p.hierarchy) with
  | .error e => return .fail e
  | .ok store =>
    let compiler : Compiler := ⟨store.hierarchy, p.limits⟩
    let (outcome, _) := compiler.filter expression explicit source .empty
    let document := if r.json then documentLines outcome.document else ""
    match outcome with
    | .filter f => return .say (if r.json then document else paint r.color .cyan f.text ++ "\n")
    | .sortKeys _ => return .say document
    | .failed source cause => return ⟨document, some (.compile source cause)⟩

/-- Compiles a sort expression. -/
def sort (r : Request) (p : Profile) (expression : String) : Answer :=
  match parseSort p.limits expression with
  | .ok keys =>
    .say (if r.json then documentLines (sortDocument keys)
      else if r.quiet then "" else sortText r.color keys)
  | .error cause =>
    ⟨if r.json then documentLines (Outcome.failed "" cause).document else "",
      some (.compile "" cause)⟩

/-- Shows the profile. -/
def showProfile (files : Files m) (r : Request) (path : String) : m Answer := do
  match ← loadProfile files path with
  | .error cause => return .fail (.profile cause)
  | .ok p =>
    let isThere ← files.isThere path
    return .say (if r.json then documentLines (profileDocument path isThere p)
      else if r.quiet then "" else profileText r.color path isThere p)

/-- The outcome of setting a key of the profile. -/
def setKey (files : Files m) (path key value : String) : m (Except ProfileError Unit) := do
  match ← loadProfile files path with
  | .error cause => return .error cause
  | .ok p =>
    match p.set key value with
    | .error cause => return .error cause
    | .ok p => saveProfile files path p

/-- Sets a key of the profile. -/
def set (files : Files m) (r : Request) (path key value : String) : m Answer := do
  match ← setKey files path key value with
  | .error cause => return .fail (.profile cause)
  | .ok () =>
    return .say (if r.json then documentLines (changeDocument path key value)
      else if r.quiet then "" else "Set " ++ key ++ " = " ++ value ++ "\n")

/-- Shows where the profile is. -/
def showPath (files : Files m) (r : Request) (path : String) : m Answer := do
  let isThere ← files.isThere path
  return .say (if r.json then documentLines (pathDocument path isThere) else path ++ "\n")

/-- Goes on with the profile in a file, if there is one. -/
def withProfile (files : Files m) (path : String) (next : Profile → m Answer) : m Answer := do
  match ← loadProfile files path with
  | .error cause => return .fail (.profile cause)
  | .ok p => next p

/-- A command. -/
def execute (files : Files m) (e : Environment) (r : Request) : m Answer :=
  let located (next : String → m Answer) : m Answer :=
    match profilePath e r.config with
    | none => pure (.fail (.profile .noPlace))
    | some path => next path
  match r.command with
  | .none =>
    pure <| .say <| if r.quiet then ""
      else "cfq - calendar filter compiler\nUse --help for usage information\n"
  | .parse expression hierarchy explicit source =>
    located fun path => withProfile files path fun p =>
      parse files r p expression hierarchy explicit source
  | .sort expression =>
    located fun path => withProfile files path fun p => pure (sort r p expression)
  | .showProfile => located fun path => showProfile files r path
  | .set key value => located fun path => set files r path key value
  | .showPath => located fun path => showPath files r path
  | .completions _ => pure (.say "")

/-- The errors that a request shows. A compile error that is shown as a document is not repeated. -/
def errorText (json : Bool) : CommandError → String
  | e@(.compile ..) => if json then "" else "Error: " ++ e.message ++ "\n"
  | e => if json then documentLines e.document else "Error: " ++ e.message ++ "\n"

/-- The report of an answer. -/
def Answer.report (json : Bool) (a : Answer) : Report where
  code := (a.error.map CommandError.exitCode).getD 0
  output := a.output
  errors := (a.error.map (errorText json)).getD ""

/-- The version of the program. -/
def version : String := "0.1.0"

/-- The report when the program stops at its arguments. -/
def Stop.report : Stop → Report
  | misuse => ⟨2, "", "usage: cfq [OPTIONS] [COMMAND]\n"⟩
  | help => ⟨0, "usage: cfq [OPTIONS] [COMMAND]\n", ""⟩
  | version title => ⟨0, title ++ " " ++ CommandLine.version ++ "\n", ""⟩

/-- One run with arguments, in an environment. -/
def run (files : Files m) (e : Environment) (args : List String) :
    m Report := do
  match Request.ofArguments args with
  | .error stop => return stop.report
  | .ok r => return (← execute files e r).report r.json

end CalendarQuery.CommandLine

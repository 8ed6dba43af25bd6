/-!
# Arguments of the command line

The arguments are read level by level: the program, then a subcommand, and so on. Each level takes
switches, options with a value, and operands.

* `Form`: the commands. `Form.child?`, `Form.operands`, `Form.takesSwitch` and `Form.takesOption`
  say what each of them takes.
* `readArguments`: the levels that the arguments spell, or why the program stops at them.
* `Request.ofArguments`: the command that they ask for.

A switch or option stands at most once in a level. What applies to all commands may stand in every
level; of two values the one in the deeper level holds.
-/

namespace CalendarQuery.CommandLine

/-- A command, or a group of them. -/
inductive Form
  | program | parse | sort | config | configShow | configSet | configPath | completions
  deriving DecidableEq, Repr

/-- A switch. -/
inductive Switch
  | verbose | quiet | json | noColor | explicit | help | version
  deriving DecidableEq, Repr

/-- An option with a value. -/
inductive ValueOption
  | config | hierarchy | source
  deriving DecidableEq, Repr

/-- Why the program stops at its arguments. -/
inductive Stop
  /-- They do not fit together. -/
  | misuse
  | help
  /-- The version of the command with the given title is asked for. -/
  | version (title : String)
  deriving DecidableEq, Repr

namespace Switch

/-- All switches. -/
def all : List Switch := [.verbose, .quiet, .json, .noColor, .explicit, .help, .version]

/-- The name, after two dashes. -/
def name : Switch → String
  | verbose => "verbose"
  | quiet => "quiet"
  | json => "json"
  | noColor => "no-color"
  | explicit => "explicit"
  | help => "help"
  | version => "version"

/-- The letter, after one dash. -/
def letter? : Switch → Option Char
  | verbose => some 'v'
  | quiet => some 'q'
  | help => some 'h'
  | version => some 'V'
  | json | noColor | explicit => none

end Switch

namespace ValueOption

/-- All options with a value. -/
def all : List ValueOption := [.config, .hierarchy, .source]

/-- The name, after two dashes. -/
def name : ValueOption → String
  | config => "config"
  | hierarchy => "hierarchy"
  | source => "source"

/-- The option takes the value; the name of a file is not empty. -/
def admits : ValueOption → String → Bool
  | config, value | hierarchy, value => !value.isEmpty
  | source, _ => true

end ValueOption

namespace Form

/-- The title, under which the version is shown. -/
def title : Form → String
  | program => "cfq"
  | parse => "cfq-parse"
  | sort => "cfq-sort"
  | config => "cfq-config"
  | configShow => "cfq-config-show"
  | configSet => "cfq-config-set"
  | configPath => "cfq-config-path"
  | completions => "cfq-completions"

/-- The subcommand of a name. -/
def child? : Form → String → Option Form
  | program, "parse" | program, "p" => some parse
  | program, "sort" | program, "s" => some sort
  | program, "config" => some config
  | program, "completions" => some completions
  | config, "show" => some configShow
  | config, "set" => some configSet
  | config, "path" => some configPath
  | _, _ => none

/-- The command has subcommands, one of which explains the others. -/
def isGroup : Form → Bool
  | program | config => true
  | _ => false

/-- A name of a shell that completions are written for. -/
def isShell (name : String) : Bool := ["bash", "zsh", "fish", "powershell"].contains name

/-- The operands in order, each with a test. -/
def operands : Form → List (String → Bool)
  | parse | sort => [fun _ => true]
  | configSet => [fun _ => true, fun _ => true]
  | completions => [isShell]
  | program | config | configShow | configPath => []

/-- The command takes the switch; all but one are for every command. -/
def takesSwitch : Form → Switch → Bool
  | form, .explicit => form == parse
  | _, _ => true

/-- The command takes the option. -/
def takesOption : Form → ValueOption → Bool
  | _, .config => true
  | form, .hierarchy | form, .source => form == parse

/-- The switch of a name. -/
def switchNamed? (form : Form) (name : String) : Option Switch :=
  Switch.all.find? fun s => s.name == name && form.takesSwitch s

/-- The switch of a letter. -/
def switchLettered? (form : Form) (letter : Char) : Option Switch :=
  Switch.all.find? fun s => s.letter? == some letter && form.takesSwitch s

/-- The option of a name. -/
def optionNamed? (form : Form) (name : String) : Option ValueOption :=
  ValueOption.all.find? fun o => o.name == name && form.takesOption o

end Form

/-- What a level has taken so far. -/
structure Level where
  form : Form
  switches : List Switch
  values : List (ValueOption × String)
  operands : List String
  /-- The last option, and its value if that was there, until the level goes on. -/
  pending : Option (ValueOption × Option String)
  deriving DecidableEq, Repr

namespace Level

/-- The start of a level. -/
def start (form : Form) : Level := ⟨form, [], [], [], none⟩

/-- The value of an option. -/
def value? (l : Level) (o : ValueOption) : Option String :=
  (l.values.find? fun entry => entry.1 == o).map Prod.snd

/-- The last option still waits for its value. -/
def isWaiting (l : Level) : Bool :=
  match l.pending with
  | some (_, none) => true
  | _ => false

/-- Takes the last option: it has a fitting value, and is there for the first time. -/
def settle (l : Level) : Except Stop Level :=
  match l.pending with
  | none => .ok l
  | some (_, none) => .error .misuse
  | some (o, some value) =>
    if (l.value? o).isSome || !o.admits value then .error .misuse
    else .ok { l with values := l.values ++ [(o, value)], pending := none }

/-- Takes a switch. -/
def switch (l : Level) (s : Switch) : Except Stop Level := do
  let l ← l.settle
  match s with
  | .help => throw .help
  | .version => throw (.version l.form.title)
  | s =>
    if l.switches.contains s then throw .misuse
    else return { l with switches := l.switches ++ [s] }

/-- Takes an option whose value may follow. -/
def option (l : Level) (o : ValueOption) : Except Stop Level := do
  return { (← l.settle) with pending := some (o, none) }

/-- Takes an option with its value. -/
def optionWith (l : Level) (o : ValueOption) (value : String) : Except Stop Level := do
  settle { (← l.settle) with pending := some (o, some value) }

/-- Takes an operand. -/
def operand (l : Level) (text : String) : Except Stop Level := do
  let l ← l.settle
  match l.form.operands[l.operands.length]? with
  | some accepts =>
    if accepts text then return { l with operands := l.operands ++ [text] } else throw .misuse
  | none => throw .misuse

/-- Takes a long name, and the value that is attached to it. -/
def long (l : Level) (name : String) (attached : Option String) : Except Stop Level :=
  match l.form.optionNamed? name, attached with
  | some o, some value => l.optionWith o value
  | some o, none => l.option o
  | none, some _ => .error .misuse
  | none, none =>
    match l.form.switchNamed? name with
    | some s => l.switch s
    | none => .error .misuse

/-- Takes letters, each a switch. -/
def letters (l : Level) : List Char → Except Stop Level
  | [] => .ok l
  | c :: cs =>
    match l.form.switchLettered? c with
    | none => .error .misuse
    | some s =>
      match l.switch s with
      | .error stop => .error stop
      | .ok l => letters l cs

/-- Takes an argument that starts with a dash, if it is one. -/
def dashed? (l : Level) (arg : String) : Option (Except Stop Level) :=
  match arg.toList with
  | '-' :: '-' :: cs =>
    let name := cs.takeWhile (· != '=')
    let attached := match cs.dropWhile (· != '=') with
      | [] => none
      | _ :: value => some (String.ofList value)
    some (l.long (String.ofList name) attached)
  | '-' :: c :: cs => some (l.letters (c :: cs))
  | _ => none

/-- Gives the value to an option that waits for it, or else takes an operand. -/
def plain (l : Level) (arg : String) : Except Stop Level :=
  match l.pending with
  | some (o, none) => .ok { l with pending := some (o, some arg) }
  | _ => l.operand arg

/-- The end of a level: all operands are there, and the program is not to be silent and to say
more at once. -/
def finish (l : Level) : Except Stop Level := do
  let l ← l.settle
  if l.operands.length < l.form.operands.length then throw .misuse
  else if l.switches.contains .verbose && l.switches.contains .quiet then throw .misuse
  else return l

end Level

/-- What stops the program when the commands of a path are to be explained. -/
def explain (form : Form) : List String → Stop
  | [] => .help
  | name :: names =>
    match form.child? name with
    | some child => explain child names
    | none => if form.isGroup && name == "help" && names.isEmpty then .help else .misuse

/-- The levels from the given one on. After `--` all arguments are operands. -/
def readLevels (l : Level) (onlyOperands : Bool) : List String → Except Stop (List Level)
  | [] => do return [← l.finish]
  | arg :: args =>
    if onlyOperands then do readLevels (← l.operand arg) true args
    else if l.isWaiting then readFurther l arg args
    else
      match l.form.child? arg with
      | some child => do
        let deeper ← readLevels (.start child) false args
        return (← l.finish) :: deeper
      | none =>
        if l.form.isGroup && arg == "help" then .error (explain l.form args)
        else readFurther l arg args
where
  /-- The levels, if the first argument is not a subcommand. -/
  readFurther (l : Level) (arg : String) (args : List String) : Except Stop (List Level) :=
    if arg == "--" then readLevels l true args
    else
      match l.dashed? arg with
      | some (.ok l) => readLevels l false args
      | some (.error stop) => .error stop
      | none => do readLevels (← l.plain arg) false args

/-- The levels of the arguments. -/
def readArguments (args : List String) : Except Stop (List Level) :=
  readLevels (.start .program) false args

/-! ## Requests -/

/-- A command with its operands. -/
inductive Command
  | none
  | parse (expression : String) (hierarchy : Option String) (explicit : Bool) (source : String)
  | sort (expression : String)
  | showProfile
  | set (key value : String)
  | showPath
  | completions (shell : String)
  deriving DecidableEq, Repr

/-- What the arguments ask for. -/
structure Request where
  command : Command
  quiet : Bool
  json : Bool
  color : Bool
  /-- The file that holds the profile. -/
  config : Option String
  deriving DecidableEq, Repr

namespace Level

/-- The command that the deepest level asks for. -/
def command (l : Level) : Command :=
  match l.form, l.operands with
  | .parse, [expression] =>
    .parse expression (l.value? .hierarchy) (l.switches.contains .explicit)
      ((l.value? .source).getD "")
  | .sort, [expression] => .sort expression
  | .config, _ | .configShow, _ => .showProfile
  | .configSet, [key, value] => .set key value
  | .configPath, _ => .showPath
  | .completions, [shell] => .completions shell
  | _, _ => .none

end Level

namespace Request

/-- What levels ask for. -/
def ofLevels (levels : List Level) : Request where
  command := ((levels.getLast?).map Level.command).getD .none
  quiet := levels.any (·.switches.contains .quiet)
  json := levels.any (·.switches.contains .json)
  color := !levels.any (·.switches.contains .noColor)
  config := (levels.filterMap (·.value? .config)).getLast?

/-- What arguments ask for, or why the program stops at them. -/
def ofArguments (args : List String) : Except Stop Request := (readArguments args).map ofLevels

end Request

end CalendarQuery.CommandLine

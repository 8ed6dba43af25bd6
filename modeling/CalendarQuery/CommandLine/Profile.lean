import CalendarQuery.Files
import CalendarQuery.Limits.Settings
import CalendarQuery.Text.Ascii
import CalendarQuery.Text.Blank

/-!
# Profiles

The settings of a user: the file of the hierarchy, and the limits. They are kept in a document in
the TOML format.

* `Profile.ofDocument?`, `Profile.document`: reading and writing.
* `Profile.set`: the profile with another value for a key.
* `ProfileError`: what can go wrong with a profile and its file.
-/

namespace CalendarQuery.CommandLine

/-- What can go wrong with a profile. -/
inductive ProfileError
  /-- There is no place for the profile. -/
  | noPlace
  | unreadable (cause : FileError)
  /-- The file is no profile. -/
  | malformed
  | folder (cause : FileError)
  /-- A value cannot be written. -/
  | inexpressible (cause : Toml.WriteError)
  | unwritable (cause : FileError)
  | unknownKey (key : String)
  | badBoolean (text : String)
  | badNumber (text : String)
  /-- Expressions of no length would be refused. -/
  | noLength
  deriving DecidableEq, Repr

/-- A profile. -/
structure Profile where
  hierarchy : Option String
  limits : Limits
  deriving DecidableEq, Repr

/-- The keys of a profile. -/
inductive ProfileKey
  | hierarchy | maxAliasDepth | maxExpressionLength | defaultSortAscending
  deriving DecidableEq, Repr

namespace ProfileKey

/-- All keys. -/
def all : List ProfileKey :=
  [.hierarchy, .maxAliasDepth, .maxExpressionLength, .defaultSortAscending]

/-- The written name. -/
def name : ProfileKey → String
  | hierarchy => "hierarchy"
  | maxAliasDepth => "compiler.max_alias_depth"
  | maxExpressionLength => "compiler.max_expression_length"
  | defaultSortAscending => "compiler.default_sort_ascending"

/-- The key of a name. -/
def ofName? (name : String) : Option ProfileKey := all.find? fun k => k.name == name

end ProfileKey

/-- The wording. -/
def ProfileError.message : ProfileError → String
  | noPlace => "Could not determine config directory"
  | unreadable cause => "Failed to read config: " ++ cause.message
  | malformed => "Failed to parse config: not a profile"
  | folder cause => "Failed to create config directory: " ++ cause.message
  | inexpressible cause => "Failed to serialize config: " ++ cause.message
  | unwritable cause => "Failed to write config: " ++ cause.message
  | unknownKey key =>
    "Unknown config key '" ++ key ++ "'. Valid keys: " ++
      ", ".intercalate (ProfileKey.all.map ProfileKey.name)
  | badBoolean text =>
    "Invalid boolean value '" ++ text ++ "'. Use true/false, yes/no, 1/0, or on/off"
  | badNumber text => "Invalid number '" ++ text ++ "'"
  | noLength => "max_expression_length must be greater than 0"

namespace Profile

/-- The profile that holds without a file. -/
def standard : Profile := ⟨none, .standard⟩

/-- The version of the form of profiles. -/
def version : Nat := 1

/-- A version: a number of 32 bits. Profiles of any version are read. -/
def version? (v : Toml.Value) : Option Nat := do
  let n ← v.natural?
  if n < UInt32.size then some n else none

/-- The profile of a document. -/
def ofDocument? (text : String) : Option Profile := do
  let r ← (← Toml.Value.ofDocument? text).record?
  let _ ← r.withDefault 0 "version" version? version
  return ⟨
    ← r.optional 1 "hierarchy" Toml.Value.text?,
    ← r.withDefault 2 "compiler" Limits.ofRecord? .standard⟩

/-- The document of a profile. -/
def document (p : Profile) : Except Toml.WriteError String := do
  let limits ← p.limits.settings
  return Toml.pairLine "version" (Text.padded 1 version) ++
    (match p.hierarchy with
      | some path => Toml.pairLine "hierarchy" (Toml.writeText path)
      | none => "") ++
    "\n" ++ Toml.headerLine "compiler" ++ limits

/-- The truth value that a text names, letter case ignored. -/
def boolean (text : String) : Except ProfileError Bool :=
  if ["true", "yes", "1", "on"].contains (Text.lower text) then .ok true
  else if ["false", "no", "0", "off"].contains (Text.lower text) then .ok false
  else .error (.badBoolean text)

/-- The number that a text spells, blanks around it ignored. -/
def number (text : String) : Except ProfileError Nat :=
  match Text.unsigned64? (Text.trim text.toList) with
  | some n => .ok n
  | none => .error (.badNumber text)

/-- The profile with another value for a key. -/
def setKey (p : Profile) (key : ProfileKey) (value : String) : Except ProfileError Profile := do
  match key with
  | .hierarchy => return { p with hierarchy := some value }
  | .maxAliasDepth => return { p with limits.maxAliasDepth := ← number value }
  | .maxExpressionLength =>
    let n ← number value
    if n = 0 then throw .noLength else return { p with limits.maxExpressionLength := n }
  | .defaultSortAscending => return { p with limits.defaultSortAscending := ← boolean value }

/-- The profile with another value for the key of a name. -/
def set (p : Profile) (key value : String) : Except ProfileError Profile :=
  match ProfileKey.ofName? key with
  | some key => p.setKey key value
  | none => .error (.unknownKey key)

end Profile

end CalendarQuery.CommandLine

import CalendarQuery.Hierarchy
import CalendarQuery.Text.Slashed

/-!
# Walking down a virtual path

A virtual path names a collection segment by segment, each under the physical collection reached so
far; aliases on the way are followed to their targets.

* `Hierarchy.chain`: the collections that a virtual path passes through, aliases included.
* `Hierarchy.follow`: the aliases from a collection to the first one that is not an alias.

A chain ends early where a segment or the target of an alias is missing. `follow` ends because an
alias that it enters is removed from the paths that it may still enter.
-/

namespace CalendarQuery

/-- A step of a chain. -/
structure ChainStep where
  collection : Collection
  /-- The collection is what the last segment of the path names. -/
  terminal : Bool
  deriving DecidableEq, Repr

/-- What follows from an alias: the aliases passed, and the collection behind them if there is
one. -/
structure AliasRun where
  aliases : List Collection
  target : Option Collection
  deriving DecidableEq, Repr

namespace Hierarchy

variable (h : Hierarchy)

/-- The paths that can be entered after `path`. -/
def without (fresh : List String) (path : String) : List String := fresh.filter (· != path)

theorem length_without_lt {fresh : List String} {path : String} (hm : path ∈ fresh) :
    (without fresh path).length < fresh.length := by
  have hle := List.length_filter_le (· != path) fresh
  rcases Nat.lt_or_eq_of_le hle with hlt | heq
  · exact hlt
  · have := List.length_filter_eq_length_iff.mp heq path hm
    simp at this

/-- Follows aliases, each of which must be among the `fresh` paths; one that is not was entered
before, so the aliases form a cycle. -/
def follow (fresh : List String) (c : Collection) : Except LookupError AliasRun :=
  if c.isAlias then
    if _hm : c.path ∈ fresh then
      match c.target with
      | none => .ok ⟨[c], none⟩
      | some target =>
        match h.collection target with
        | .error cause => .error cause
        | .ok none => .ok ⟨[c], none⟩
        | .ok (some d) =>
          match follow (without fresh c.path) d with
          | .error cause => .error cause
          | .ok run => .ok ⟨c :: run.aliases, run.target⟩
    else .error (.aliasCycle c.path)
  else .ok ⟨[], some c⟩
termination_by fresh.length
decreasing_by exact length_without_lt _hm

/-- The collection behind a run of aliases, which knows the alias it was reached through. -/
def AliasRun.reached (run : AliasRun) : Option Collection :=
  run.target.map fun c =>
    match run.aliases with
    | [] => c
    | first :: _ => { c with origin := some first.path }

/-- The steps for the segments of a path below the collection at `parent`. -/
def descend (parent : String) : (segments : List String) → Except LookupError (List ChainStep)
  | [] => .ok []
  | segment :: segments =>
    match h.collection (Text.joinPath parent segment) with
    | .error cause => .error cause
    | .ok none => .ok []
    | .ok (some c) =>
      match h.follow h.paths c with
      | .error cause => .error cause
      | .ok run =>
        let passed := run.aliases.map fun a => ⟨a, false⟩
        match AliasRun.reached run with
        | none => .ok passed
        | some d =>
          match descend d.path segments with
          | .error cause => .error cause
          | .ok steps => .ok (passed ++ ⟨d, segments.isEmpty⟩ :: steps)

/-- The collections that a virtual path passes through, from the root. -/
def chain (vpath : String) : Except LookupError (List ChainStep) :=
  if Text.isAbsolute vpath then
    let segments := Text.pathSegments vpath
    match h.collection "/" with
    | .error cause => .error cause
    | .ok root =>
      match h.descend "/" segments with
      | .error cause => .error cause
      | .ok steps => .ok ((root.toList.map fun c => ⟨c, segments.isEmpty⟩) ++ steps)
  else .error (.invalidPath vpath)

end Hierarchy

end CalendarQuery

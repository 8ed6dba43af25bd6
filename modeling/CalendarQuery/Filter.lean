import CalendarQuery.Property.Path
import CalendarQuery.Time.Stamp

/-!
# Filters

The tree that a filter expression stands for, and the words it is made of.

* `Comparator`: the operators between a property path and its operand.
* `EntityKind.ofName?`: the kinds of calendar entity.
* `Filter`: the tree. Its equality is decidable.
* `Filter.equals`, `Filter.inCollection`: the leaves that resolution produces.
-/

namespace CalendarQuery

/-- An operator between a property path and its operand. -/
inductive Comparator
  | isDefined | notDefined | equal | notEqual | like | notLike | greaterThan | lessThan
  | greaterThanOrEqual | lessThanOrEqual | inTimeRange | startsWith | indexed
  deriving DecidableEq, Repr

namespace Comparator

/-- All comparators, in order of declaration. -/
def all : List Comparator :=
  [.isDefined, .notDefined, .equal, .notEqual, .like, .notLike, .greaterThan, .lessThan,
    .greaterThanOrEqual, .lessThanOrEqual, .inTimeRange, .startsWith, .indexed]

/-- The written form. -/
def symbol : Comparator → String
  | .isDefined => "isdefined"
  | .notDefined => "notdefined"
  | .equal => "="
  | .notEqual => "!="
  | .like => "~"
  | .notLike => "!~"
  | .greaterThan => ">"
  | .lessThan => "<"
  | .greaterThanOrEqual => ">="
  | .lessThanOrEqual => "<="
  | .inTimeRange => "in"
  | .startsWith => "startswith"
  | .indexed => "indexed"

/-- The code under which a comparator appears in a result document. -/
def code : Comparator → String
  | .isDefined => "isDefined"
  | .notDefined => "notDefined"
  | .equal => "equal"
  | .notEqual => "notEqual"
  | .like => "like"
  | .notLike => "notLike"
  | .greaterThan => "greaterThan"
  | .lessThan => "lessThan"
  | .greaterThanOrEqual => "greaterThanOrEqual"
  | .lessThanOrEqual => "lessThanOrEqual"
  | .inTimeRange => "inTimeRange"
  | .startsWith => "startsWith"
  | .indexed => "indexed"

/-- The comparator with the given code. -/
def ofCode? (code : String) : Option Comparator := all.find? fun c => c.code == code

/-- A comparator that inverts the match. -/
def isNegated : Comparator → Bool
  | .notEqual | .notLike => true
  | _ => false

/-- The match is for equality, not for a part of the value. -/
def isExact : Comparator → Bool
  | .equal | .notEqual | .indexed => true
  | _ => false

/-- The match ignores letter case. -/
def isCaseless : Comparator → Bool
  | .like | .notLike => true
  | _ => false

/-- The match is for the start of the value. -/
def isPrefix : Comparator → Bool
  | .startsWith => true
  | _ => false

/-- A comparator that compares with an operand. -/
def takesOperand : Comparator → Bool
  | .isDefined | .notDefined | .inTimeRange => false
  | _ => true

end Comparator

/-- An operator between two filters. -/
inductive LogicalOp
  | and | or
  deriving DecidableEq, Repr

namespace LogicalOp

/-- The written form. -/
def symbol : LogicalOp → Char
  | .and => '&'
  | .or => '|'

/-- The code under which the operator appears in a result document. -/
def code : LogicalOp → String
  | .and => "and"
  | .or => "or"

end LogicalOp

/-- The operand of a comparison. -/
inductive Operand
  | text (value : String)
  | number (value : Int64)
  deriving DecidableEq, Repr

namespace Operand

/-- The written form. -/
def render : Operand → String
  | text s => Text.quoted s
  | number n => Text.decimal n.toInt

end Operand

/-- A kind of calendar entity. -/
inductive EntityKind
  | event | todo | journal | freebusy | vavailability | available | vpoll | note
  deriving DecidableEq, Repr

namespace EntityKind

/-- All kinds. -/
def all : List EntityKind :=
  [.event, .todo, .journal, .freebusy, .vavailability, .available, .vpoll, .note]

theorem mem_all (k : EntityKind) : k ∈ all := by cases k <;> decide

/-- The written name. -/
def name : EntityKind → String
  | .event => "event"
  | .todo => "todo"
  | .journal => "journal"
  | .freebusy => "freebusy"
  | .vavailability => "vavailability"
  | .available => "available"
  | .vpoll => "vpoll"
  | .note => "note"

/-- The kind of the given name, letter case ignored; a task is a to-do. -/
def ofName? (name : String) : Option EntityKind :=
  if Text.sameName name "task" then some .todo else all.find? fun k => Text.sameName name k.name

end EntityKind

/-- A compiled filter. -/
inductive Filter
  /-- All children match. A name marks the group of a virtual path; such a group is never merged
  into the group around it. -/
  | and (name : Option String) (children : List Filter)
  /-- Some child matches. -/
  | or (children : List Filter)
  /-- A property compares with an operand. `exact` asks for equality instead of a part,
  `isPrefix` for the start of the value. -/
  | compare (path : PropertyPath) (operator : Comparator) (operand : Operand)
      (exact negate caseless isPrefix : Bool)
  /-- A property is there, or is not. -/
  | presence (path : PropertyPath) (isPresent : Bool)
  /-- The entity is of the kind. -/
  | entity (kind : EntityKind)
  /-- A property lies between the bounds, the first included; a missing bound is open. -/
  | timeRange (path : PropertyPath) (first last : Option Stamp)
  /-- The filter of a named view. -/
  | view (name : String) (filter : Filter)
  deriving Repr

namespace Filter

mutual

/-- Decides equality of filters. -/
def decEq : (a b : Filter) → Decidable (a = b)
  | .and n cs, .and m ds =>
    match decEqList cs ds with
    | isTrue h => if hn : n = m then isTrue (by rw [h, hn]) else isFalse (by simp [hn])
    | isFalse h => isFalse (by simp [h])
  | .or cs, .or ds =>
    match decEqList cs ds with
    | isTrue h => isTrue (by rw [h])
    | isFalse h => isFalse (by simp [h])
  | .compare p o v e n c s, .compare p' o' v' e' n' c' s' =>
    decidable_of_iff (p = p' ∧ o = o' ∧ v = v' ∧ e = e' ∧ n = n' ∧ c = c' ∧ s = s') (by simp)
  | .presence p b, .presence q c => decidable_of_iff (p = q ∧ b = c) (by simp)
  | .entity k, .entity l => decidable_of_iff (k = l) (by simp)
  | .timeRange p s e, .timeRange q t f => decidable_of_iff (p = q ∧ s = t ∧ e = f) (by simp)
  | .view n f, .view m g =>
    match decEq f g with
    | isTrue h => if hn : n = m then isTrue (by rw [h, hn]) else isFalse (by simp [hn])
    | isFalse h => isFalse (by simp [h])
  | .and .., .or .. | .and .., .compare .. | .and .., .presence .. | .and .., .entity ..
  | .and .., .timeRange .. | .and .., .view .. | .or .., .and .. | .or .., .compare ..
  | .or .., .presence .. | .or .., .entity .. | .or .., .timeRange .. | .or .., .view ..
  | .compare .., .and .. | .compare .., .or .. | .compare .., .presence ..
  | .compare .., .entity .. | .compare .., .timeRange .. | .compare .., .view ..
  | .presence .., .and .. | .presence .., .or .. | .presence .., .compare ..
  | .presence .., .entity .. | .presence .., .timeRange .. | .presence .., .view ..
  | .entity .., .and .. | .entity .., .or .. | .entity .., .compare .. | .entity .., .presence ..
  | .entity .., .timeRange .. | .entity .., .view .. | .timeRange .., .and ..
  | .timeRange .., .or .. | .timeRange .., .compare .. | .timeRange .., .presence ..
  | .timeRange .., .entity .. | .timeRange .., .view .. | .view .., .and .. | .view .., .or ..
  | .view .., .compare .. | .view .., .presence .. | .view .., .entity ..
  | .view .., .timeRange .. => isFalse (by simp)

/-- Decides equality of lists of filters. -/
def decEqList : (as bs : List Filter) → Decidable (as = bs)
  | [], [] => isTrue rfl
  | [], _ :: _ => isFalse (by simp)
  | _ :: _, [] => isFalse (by simp)
  | a :: as, b :: bs =>
    match decEq a b, decEqList as bs with
    | isTrue h, isTrue h' => isTrue (by rw [h, h'])
    | isFalse h, _ => isFalse (by simp [h])
    | _, isFalse h => isFalse (by simp [h])

end

instance : DecidableEq Filter := decEq

/-- The comparison of a path with an operand, its flags those of the operator. -/
def comparison (path : PropertyPath) (operator : Comparator) (operand : Operand) : Filter :=
  .compare path operator operand operator.isExact operator.isNegated operator.isCaseless
    operator.isPrefix

/-- Equality with a text. -/
def equals (path : PropertyPath) (value : String) : Filter := comparison path .equal (.text value)

/-- The entity lives in the collection at `path`. -/
def inCollection (path : String) : Filter := equals (.single .collection) path

/-- A conjunction or disjunction. -/
def isGroup : Filter → Bool
  | .and .. | .or .. => true
  | _ => false

end Filter

end CalendarQuery

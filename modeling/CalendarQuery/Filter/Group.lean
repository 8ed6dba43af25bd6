import CalendarQuery.Filter

/-!
# Grouping filters

Two filters combine into one group, in which unnamed groups of the same operator are merged.

* `Filter.fold`: two filters under an operator.
* `Filter.combine`: any number of them; `Filter.all?` and `Filter.any?` for each operator.
* `Filter.parts`: the children a filter contributes to a group.
-/

namespace CalendarQuery.Filter

/-- What a filter contributes to a group under `op`: the children of an unnamed group of that
operator, else itself. -/
def parts (op : LogicalOp) : Filter → List Filter
  | .and none children => if op = .and then children else [.and none children]
  | .or children => if op = .or then children else [.or children]
  | f => [f]

/-- The unnamed group of the given children. -/
def group (op : LogicalOp) (children : List Filter) : Filter :=
  match op with
  | .and => .and none children
  | .or => .or children

/-- Two filters under one operator. -/
def fold (left right : Filter) (op : LogicalOp) : Filter :=
  group op (parts op left ++ parts op right)

/-- Any number of filters under one operator: none for none, a single one as it is. -/
def combine (op : LogicalOp) : List Filter → Option Filter
  | [] => none
  | [f] => some f
  | fs => some (fs.foldl (fun acc f => fold acc f op) (group op []))

/-- All of the filters match. -/
def all? (fs : List Filter) : Option Filter := combine .and fs

/-- Some of the filters match. -/
def any? (fs : List Filter) : Option Filter := combine .or fs

@[simp] theorem parts_group (op : LogicalOp) (children : List Filter) :
    parts op (group op children) = children := by
  cases op <;> simp [parts, group]

@[simp] theorem parts_fold (left right : Filter) (op : LogicalOp) :
    parts op (fold left right op) = parts op left ++ parts op right := by
  simp [fold]

end CalendarQuery.Filter

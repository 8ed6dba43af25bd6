import CalendarQuery.Proofs.Expression.Grammar
import CalendarQuery.Filter.Render

/-!
# Normal form of filters

The normal form of a filter has no group of one filter, no named group, and no group inside a group
of the same operator. It is what the canonical text of a filter says.

* `Filter.normal`: the normal form.
* `Filter.parentheses`: how deep the parentheses of the canonical text are nested.
* `Filter.folded_eq_merged`, `Filter.combine_eq_merged`: the filters of a level, and those of a
  list, fold to one merged group.
-/

namespace CalendarQuery.Filter

/-- Filters under one operator: a single one as it is, and several as one group that takes up
the unnamed groups of the operator among them. -/
def merged (op : LogicalOp) : List Filter → Filter
  | [f] => f
  | fs => group op (fs.flatMap (parts op))

mutual

/-- The normal form: groups of one filter give way to it, names of groups are dropped, and a group
takes up the groups of its operator among its children. -/
def normal : Filter → Filter
  | .and _ children => merged .and (normalEach children)
  | .or children => merged .or (normalEach children)
  | f => f

/-- The normal forms of several filters. -/
def normalEach : List Filter → List Filter
  | [] => []
  | f :: fs => normal f :: normalEach fs

end

mutual

/-- The number of parentheses around the innermost part of the canonical text. -/
def parentheses : Filter → Nat
  | .and _ children => enclosing children
  | .or children => enclosing children
  | _ => 0

/-- The same for the children of a group, each in parentheses if it is a group. -/
def enclosing : List Filter → Nat
  | [] => 0
  | f :: fs => max (if f.isGroup then parentheses f + 1 else 0) (enclosing fs)

end

theorem normal_leaf {f : Filter} (h : f.isGroup = false) : f.normal = f := by
  cases f <;> simp_all [isGroup, normal]

/-- Filters that are folded one after the other into a group. -/
theorem folded_fold (op : LogicalOp) (f g : Filter) (fs : List Filter) :
    Grammar.folded op (fold f g op) fs = group op ((f :: g :: fs).flatMap (parts op)) := by
  induction fs generalizing f g with
  | nil => simp [fold]
  | cons h fs ih =>
    rw [Grammar.folded_cons, ih]
    simp

theorem folded_eq_merged (op : LogicalOp) (f : Filter) (fs : List Filter) :
    Grammar.folded op f fs = merged op (f :: fs) := by
  cases fs with
  | nil => rfl
  | cons g fs => rw [Grammar.folded_cons, folded_fold]; rfl

/-- Filters folded into a group take their places behind its children. -/
theorem foldl_group (op : LogicalOp) (children fs : List Filter) :
    fs.foldl (fun acc f => fold acc f op) (group op children) =
      group op (children ++ fs.flatMap (parts op)) := by
  induction fs generalizing children with
  | nil => simp
  | cons f fs ih =>
    have hfold : fold (group op children) f op = group op (children ++ parts op f) := by
      simp [fold]
    rw [List.foldl_cons, hfold, ih, List.append_assoc, List.flatMap_cons]

theorem combine_eq_merged (op : LogicalOp) {fs : List Filter} (h : fs ≠ []) :
    combine op fs = some (merged op fs) := by
  match fs with
  | [] => exact absurd rfl h
  | [f] => rfl
  | f :: g :: fs =>
    have hcombine : combine op (f :: g :: fs) = some ((f :: g :: fs).foldl
        (fun acc f => fold acc f op) (group op [])) := rfl
    rw [hcombine, foldl_group]
    rfl

end CalendarQuery.Filter

import CalendarQuery.Proofs.Filter.WellFormed
import CalendarQuery.Proofs.Selection.Leaves

/-!
# Grouping is associative

A group has the parts of its members, one after the other. So it makes no difference in which order
filters are grouped two at a time, or whether they are grouped all at once.

* `Filter.fold_assoc`, `Filter.merged_append`: groups of two, and groups of lists.
* `Filter.not_isGroupOf_named`, `Filter.isGroupOf_group`: which filters are groups of an operator.
* `Filter.grouping_flattens`: what a group is made of, however it comes about.
-/

namespace CalendarQuery.Filter

/-- Three filters make the same group from the left and from the right. -/
theorem fold_assoc (op : LogicalOp) (a b c : Filter) :
    fold (fold a b op) c op = fold a (fold b c op) op :=
  calc fold (fold a b op) c op
    _ = group op ((parts op a ++ parts op b) ++ parts op c) := by rw [fold, parts_fold]
    _ = group op (parts op a ++ (parts op b ++ parts op c)) := by rw [List.append_assoc]
    _ = fold a (fold b c op) op := by rw [fold, parts_fold]

theorem two_le_length_append {xs ys : List Filter} (hxs : xs ≠ []) (hys : ys ≠ []) :
    2 ≤ (xs ++ ys).length := by
  have hx := List.length_pos_iff.mpr hxs
  have hy := List.length_pos_iff.mpr hys
  rw [List.length_append]
  omega

/-- Several filters under one operator, when there are at least two. -/
theorem merged_of_two_le (op : LogicalOp) {fs : List Filter} (h : 2 ≤ fs.length) :
    merged op fs = group op (fs.flatMap (parts op)) := by
  match fs with
  | [] | [_] => simp at h
  | _ :: _ :: _ => rfl

/-- Two lists of filters make the group that both together make. -/
theorem merged_append (op : LogicalOp) {xs ys : List Filter} (hxs : xs ≠ []) (hys : ys ≠ []) :
    merged op (xs ++ ys) = fold (merged op xs) (merged op ys) op := by
  rw [merged_of_two_le op (two_le_length_append hxs hys), fold, parts_merged, parts_merged,
    List.flatMap_append]

/-- The same for the filters that lists combine to. -/
theorem combine_append (op : LogicalOp) {xs ys : List Filter} (hxs : xs ≠ []) (hys : ys ≠ []) :
    ∃ f g, combine op xs = some f ∧ combine op ys = some g ∧
      combine op (xs ++ ys) = some (fold f g op) := by
  have happend : xs ++ ys ≠ [] := List.append_ne_nil_of_left_ne_nil hxs ys
  refine ⟨merged op xs, merged op ys, combine_eq_merged op hxs, combine_eq_merged op hys, ?_⟩
  rw [combine_eq_merged op happend, merged_append op hxs hys]

/-- A group that has a name is no group of the operator. -/
theorem not_isGroupOf_named (op : LogicalOp) (name : String) (children : List Filter) :
    ¬(Filter.and (some name) children).IsGroupOf op := by
  rintro ⟨inner, h⟩
  cases op <;> simp [group] at h

/-- An unnamed group is a group of its own operator only. -/
theorem isGroupOf_group {op other : LogicalOp} {children : List Filter} :
    (group other children).IsGroupOf op ↔ other = op := by
  constructor
  · rintro ⟨inner, h⟩
    cases op <;> cases other <;> first | rfl | simp [group] at h
  · rintro rfl
    exact ⟨children, rfl⟩

/-- Three filters make the same group from the left and from the right, and lists of filters the
group that both together make. The members of a group are the parts of the filters it is made of,
one after the other: the children of an unnamed group of the operator, and any other filter as
it is, groups that have a name and groups of the other operator among them. -/
theorem grouping_flattens (op : LogicalOp) (a b c : Filter) {xs ys : List Filter} (hxs : xs ≠ [])
    (hys : ys ≠ []) :
    fold (fold a b op) c op = fold a (fold b c op) op ∧
    (∃ f g, all? xs = some f ∧ all? ys = some g ∧ all? (xs ++ ys) = some (fold f g .and)) ∧
    (∃ f g, any? xs = some f ∧ any? ys = some g ∧ any? (xs ++ ys) = some (fold f g .or)) ∧
    fold a b op = group op (parts op a ++ parts op b) ∧
    all? (xs ++ ys) = some (.and none ((xs ++ ys).flatMap (parts .and))) ∧
    any? (xs ++ ys) = some (.or ((xs ++ ys).flatMap (parts .or))) ∧
    (∀ children, parts op (group op children) = children) ∧
    (∀ f : Filter, ¬f.IsGroupOf op → parts op f = [f]) ∧
    (∀ name children, ¬(Filter.and (some name) children).IsGroupOf op) ∧
    ∀ other children, (group other children).IsGroupOf op ↔ other = op := by
  have happend : xs ++ ys ≠ [] := List.append_ne_nil_of_left_ne_nil hxs ys
  have hlength := two_le_length_append hxs hys
  refine ⟨fold_assoc op a b c, combine_append .and hxs hys, combine_append .or hxs hys, rfl, ?_, ?_,
    parts_group op, ?_, not_isGroupOf_named op, fun _ _ => isGroupOf_group⟩
  · rw [all?, combine_eq_merged .and happend, merged_of_two_le .and hlength]
    rfl
  · rw [any?, combine_eq_merged .or happend, merged_of_two_le .or hlength]
    rfl
  · intro f hf
    obtain ⟨children, rfl, -⟩ | ⟨-, hparts⟩ := eq_group_or_parts_eq op f
    · exact absurd ⟨children, rfl⟩ hf
    · exact hparts

/-- A group that has a name, an empty group of the other operator, and a conjunction of one
member: together they have three members. -/
theorem grouping_flattens_mixed :
    let named := Filter.and (some "home") [.entity .event]
    let empty := Filter.or []
    let single := Filter.and none [.entity .todo]
    fold (fold named empty .and) single .and = fold named (fold empty single .and) .and ∧
    all? ([named] ++ [empty, single]) = some (.and none [named, empty, .entity .todo]) := by
  have hxs : [Filter.and (some "home") [.entity .event]] ≠ [] := by simp
  have hys : [Filter.or [], Filter.and none [.entity .todo]] ≠ [] := by simp
  obtain ⟨hassoc, -, -, -, hall, -⟩ := grouping_flattens .and
    (.and (some "home") [.entity .event]) (.or []) (.and none [.entity .todo]) hxs hys
  exact ⟨hassoc, hall⟩

end CalendarQuery.Filter

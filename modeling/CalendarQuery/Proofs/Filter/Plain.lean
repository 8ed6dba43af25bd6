import CalendarQuery.Proofs.Filter.WellFormed

/-!
# Plain filters

A filter is plain if its text says all of it: no name of a group is lost, no view stands for a
filter, and no collection has to be found again. Grouping makes plain filters out of plain ones
only, and a plain filter that is well formed is its own normal form.

* `Filter.Plain`: the plain filters.
* `Filter.everywhere_merged`: grouping neither adds nor takes places but unnamed groups.
* `Filter.normal_eq_self`: the normal form of a plain filter.
* `Filter.parentheses_merged_le`: the parentheses that a group is written with are those of its
  members.
-/

namespace CalendarQuery.Filter

variable {P Q : Filter → Prop} {op : LogicalOp} {f : Filter} {fs : List Filter}

/-- What holds at one place of a plain filter. -/
def IsPlain : Filter → Prop
  | .and (some _) _ | .view .. => False
  | .compare path .. => path.first ≠ .collection
  | _ => True

/-- No views, no names of groups, and no comparison with a collection. -/
def Plain (f : Filter) : Prop := f.Everywhere IsPlain

theorem Everywhere.and (hf : f.Everywhere P) (hg : f.Everywhere Q) :
    f.Everywhere fun g => P g ∧ Q g :=
  fun g h => ⟨hf g h, hg g h⟩

theorem Everywhere.self (hf : f.Everywhere P) : P f := by
  refine hf f ?_
  cases f <;> exact List.mem_cons_self

/-! ## Grouping -/

theorem everywhere_group :
    (group op fs).Everywhere P ↔ P (group op fs) ∧ ∀ f ∈ fs, f.Everywhere P := by
  cases op with
  | and => exact everywhere_and
  | or => exact everywhere_or

/-- A filter and what it contributes to a group have the same places but for unnamed groups. -/
theorem everywhere_parts (hP : ∀ op fs, P (group op fs)) (op : LogicalOp) (f : Filter) :
    (∀ g ∈ f.parts op, g.Everywhere P) ↔ f.Everywhere P := by
  obtain ⟨children, rfl, hparts⟩ | ⟨-, hparts⟩ := eq_group_or_parts_eq op f
  · rw [hparts, everywhere_group]
    simp only [hP, true_and]
  · rw [hparts]
    exact List.forall_mem_singleton

theorem everywhere_merged (hP : ∀ op fs, P (group op fs)) (op : LogicalOp) (fs : List Filter) :
    (merged op fs).Everywhere P ↔ ∀ f ∈ fs, f.Everywhere P := by
  have hgroup : (group op (fs.flatMap (parts op))).Everywhere P ↔ ∀ f ∈ fs, f.Everywhere P := by
    rw [everywhere_group, List.forall_mem_flatMap]
    simp only [hP, true_and, everywhere_parts hP]
  match fs with
  | [] => exact hgroup
  | [f] => exact List.forall_mem_singleton.symm
  | f :: g :: fs => exact hgroup

theorem isPlain_group (op : LogicalOp) (fs : List Filter) : (group op fs).IsPlain := by
  cases op <;> trivial

theorem plain_merged : (merged op fs).Plain ↔ ∀ f ∈ fs, f.Plain :=
  everywhere_merged isPlain_group op fs

/-- Nothing is merged where no member is a group of the operator. -/
theorem flatMap_parts_eq_self (h : ∀ f ∈ fs, ¬f.IsGroupOf op) : fs.flatMap (parts op) = fs := by
  induction fs with
  | nil => rfl
  | cons f fs ih =>
    obtain ⟨hf, hfs⟩ := List.forall_mem_cons.mp h
    have hparts : parts op f = [f] := by
      obtain ⟨children, hgroup, -⟩ | ⟨-, hparts⟩ := eq_group_or_parts_eq op f
      · exact absurd ⟨children, hgroup⟩ hf
      · exact hparts
    rw [List.flatMap_cons, hparts, ih hfs, List.singleton_append]

theorem merged_eq_group (hlength : 2 ≤ fs.length) (h : ∀ f ∈ fs, ¬f.IsGroupOf op) :
    merged op fs = group op fs := by
  match fs, hlength with
  | f :: g :: fs, _ => rw [merged, flatMap_parts_eq_self h]; simp

mutual

theorem normal_eq_self (f : Filter) (hf : f.WellFormed) (hplain : f.Plain) : f.normal = f := by
  cases f with
  | and name children =>
    obtain ⟨hsane, hchildren⟩ := wellFormed_and.mp hf
    obtain ⟨hname, hplains⟩ := everywhere_and.mp hplain
    cases name with
    | some name => exact hname.elim
    | none =>
      rw [normal, normalEach_eq_self children hchildren hplains, merged_eq_group hsane.1 hsane.2,
        group]
  | or children =>
    obtain ⟨hsane, hchildren⟩ := wellFormed_or.mp hf
    obtain ⟨-, hplains⟩ := everywhere_or.mp hplain
    rw [normal, normalEach_eq_self children hchildren hplains, merged_eq_group hsane.1 hsane.2,
      group]
  | _ => rfl

theorem normalEach_eq_self (fs : List Filter) (hfs : ∀ f ∈ fs, f.WellFormed)
    (hplain : ∀ f ∈ fs, f.Plain) : normalEach fs = fs := by
  cases fs with
  | nil => rfl
  | cons f fs =>
    obtain ⟨hf, hfs⟩ := List.forall_mem_cons.mp hfs
    obtain ⟨hp, hplain⟩ := List.forall_mem_cons.mp hplain
    rw [normalEach, normal_eq_self f hf hp, normalEach_eq_self fs hfs hplain]

end

/-! ## Parentheses -/

theorem enclosing_le_iff {n : Nat} : enclosing fs ≤ n ↔ ∀ f ∈ fs, enclosing [f] ≤ n := by
  induction fs with
  | nil => simp [enclosing]
  | cons f fs ih =>
    simp only [enclosing, Nat.max_le, ih, List.forall_mem_cons, Nat.zero_le, and_true]

theorem parentheses_group (op : LogicalOp) (fs : List Filter) :
    (group op fs).parentheses = enclosing fs := by
  cases op <;> rfl

theorem enclosing_singleton (f : Filter) :
    enclosing [f] = if f.isGroup then f.parentheses + 1 else 0 := by
  rw [enclosing, enclosing, Nat.max_zero]

theorem parentheses_le_enclosing (f : Filter) : f.parentheses ≤ enclosing [f] := by
  rw [enclosing_singleton]
  cases f <;> simp [isGroup, parentheses]

/-- What a filter contributes to a group needs no more parentheses than the filter. -/
theorem enclosing_parts_le (op : LogicalOp) (f : Filter) :
    enclosing (f.parts op) ≤ enclosing [f] := by
  obtain ⟨children, rfl, hparts⟩ | ⟨-, hparts⟩ := eq_group_or_parts_eq op f
  · rw [hparts, ← parentheses_group op]
    exact parentheses_le_enclosing _
  · exact Nat.le_of_eq (congrArg enclosing hparts)

theorem parentheses_merged_le (op : LogicalOp) (fs : List Filter) :
    (merged op fs).parentheses ≤ enclosing fs := by
  have hgroup : (group op (fs.flatMap (parts op))).parentheses ≤ enclosing fs := by
    rw [parentheses_group, enclosing_le_iff, List.forall_mem_flatMap]
    intro f hf
    rw [← enclosing_le_iff]
    exact Nat.le_trans (enclosing_parts_le op f) (enclosing_le_iff.mp (Nat.le_refl _) f hf)
  match fs with
  | [] => exact hgroup
  | [f] => exact parentheses_le_enclosing f
  | f :: g :: fs => exact hgroup

end CalendarQuery.Filter

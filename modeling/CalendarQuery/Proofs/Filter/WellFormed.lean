import CalendarQuery.Proofs.Filter.Normal
import CalendarQuery.Proofs.Property.Path

/-!
# Well-formed filters

What holds at each place of a filter that is compiled: no group of one operator directly inside
another, no group that could do without its brackets, flags that are those of the operator, and
paths that the grammar has.

* `Filter.subtrees`: the places of a filter. `Filter.Everywhere`: a property holds at all of them.
* `Filter.Sane`: what holds at one place.
* `Filter.WellFormed`: it holds at every place. `WellFormed.merged`, `WellFormed.fold` and
  `WellFormed.combine` say that grouping keeps it.
-/

namespace CalendarQuery.Filter

mutual

/-- The filter and the filters inside it, down to the leaves. -/
def subtrees : Filter → List Filter
  | .and name children => .and name children :: subtreesEach children
  | .or children => .or children :: subtreesEach children
  | .view name f => .view name f :: subtrees f
  | f => [f]

/-- The same for several filters. -/
def subtreesEach : List Filter → List Filter
  | [] => []
  | f :: fs => subtrees f ++ subtreesEach fs

end

/-- An unnamed group of the operator. -/
def IsGroupOf (op : LogicalOp) (f : Filter) : Prop := ∃ children, f = group op children

/-- A number can be compared, but neither letter case nor the start of a value can be ignored. -/
def Fits (operator : Comparator) : Operand → Prop
  | .text _ => operator.takesOperand = true
  | .number _ => operator.takesOperand = true ∧ operator.isCaseless = false ∧
      operator.isPrefix = false

/-- What holds at one place of a filter. -/
def Sane : Filter → Prop
  | .and none children => 2 ≤ children.length ∧ ∀ f ∈ children, ¬f.IsGroupOf .and
  | .and (some _) children => children ≠ []
  | .or children => 2 ≤ children.length ∧ ∀ f ∈ children, ¬f.IsGroupOf .or
  | .compare path operator operand exact negate caseless isPrefix =>
    path.WellFormed ∧ Fits operator operand ∧ exact = operator.isExact ∧
      negate = operator.isNegated ∧ caseless = operator.isCaseless ∧
      isPrefix = operator.isPrefix
  | .presence path _ => path.WellFormed
  | .entity _ => True
  | .timeRange path first last => path.WellFormed ∧ (first.isSome ∨ last.isSome) ∧
      (∀ t ∈ first, t.nanosecond = 0) ∧ ∀ t ∈ last, t.nanosecond = 0
  | .view _ _ => True

/-- The same at every place. -/
def WellFormed (f : Filter) : Prop := ∀ g ∈ f.subtrees, g.Sane

theorem subtreesEach_eq_flatMap (fs : List Filter) : subtreesEach fs = fs.flatMap subtrees := by
  induction fs with
  | nil => rfl
  | cons f fs ih => rw [subtreesEach, ih, List.flatMap_cons]

/-- The property holds of the filter and of all filters inside it. -/
def Everywhere (P : Filter → Prop) (f : Filter) : Prop := ∀ g ∈ f.subtrees, P g

section Everywhere

variable {P : Filter → Prop} {f : Filter} {fs : List Filter}

theorem everywhere_and {name : Option String} :
    (and name fs).Everywhere P ↔ P (and name fs) ∧ ∀ f ∈ fs, f.Everywhere P := by
  simp only [Everywhere, subtrees, subtreesEach_eq_flatMap, List.forall_mem_cons,
    List.forall_mem_flatMap]

theorem everywhere_or : (or fs).Everywhere P ↔ P (or fs) ∧ ∀ f ∈ fs, f.Everywhere P := by
  simp only [Everywhere, subtrees, subtreesEach_eq_flatMap, List.forall_mem_cons,
    List.forall_mem_flatMap]

/-- A filter without filters inside it. -/
theorem everywhere_leaf (hleaf : f.subtrees = [f]) : f.Everywhere P ↔ P f := by
  rw [Everywhere, hleaf]
  exact List.forall_mem_singleton

end Everywhere

theorem wellFormed_and {name : Option String} {children : List Filter} :
    (and name children).WellFormed ↔
      (and name children).Sane ∧ ∀ f ∈ children, f.WellFormed :=
  everywhere_and

theorem wellFormed_or {children : List Filter} :
    (or children).WellFormed ↔ (or children).Sane ∧ ∀ f ∈ children, f.WellFormed :=
  everywhere_or

theorem wellFormed_view {name : String} {f : Filter} :
    (view name f).WellFormed ↔ f.WellFormed := by
  simp [WellFormed, subtrees, Sane]

/-- A filter without filters inside it. -/
theorem Sane.wellFormed {f : Filter} (h : f.Sane) (hleaf : f.subtrees = [f]) : f.WellFormed :=
  (everywhere_leaf hleaf).mpr h

/-! ## Leaves -/

theorem wellFormed_comparison {path : PropertyPath} {operator : Comparator} {operand : Operand}
    (hpath : path.WellFormed) (hoperand : Fits operator operand) :
    (comparison path operator operand).WellFormed :=
  Sane.wellFormed (f := comparison path operator operand) ⟨hpath, hoperand, rfl, rfl, rfl, rfl⟩ rfl

theorem wellFormed_inCollection (path : String) : (inCollection path).WellFormed :=
  wellFormed_comparison (PropertyPath.wellFormed_single rfl) rfl

/-! ## Groups -/

theorem wellFormed_group {op : LogicalOp} {children : List Filter}
    (hlength : 2 ≤ children.length)
    (hchildren : ∀ f ∈ children, f.WellFormed ∧ ¬f.IsGroupOf op) :
    (group op children).WellFormed := by
  have hflat : ∀ f ∈ children, ¬f.IsGroupOf op := fun f hf => (hchildren f hf).2
  have hall : ∀ f ∈ children, f.WellFormed := fun f hf => (hchildren f hf).1
  cases op with
  | and => exact wellFormed_and.mpr ⟨⟨hlength, hflat⟩, hall⟩
  | or => exact wellFormed_or.mpr ⟨⟨hlength, hflat⟩, hall⟩

/-- A group that has a name keeps what is inside it. -/
theorem wellFormed_named (name : String) {children : List Filter} (hne : children ≠ [])
    (hchildren : ∀ f ∈ children, f.WellFormed) : (and (some name) children).WellFormed :=
  wellFormed_and.mpr ⟨hne, hchildren⟩

/-- A filter is a group of the operator, or the only one of its parts. -/
theorem eq_group_or_parts_eq (op : LogicalOp) (f : Filter) :
    (∃ children, f = group op children ∧ parts op f = children) ∨
      (¬f.IsGroupOf op ∧ parts op f = [f]) := by
  by_cases h : f.IsGroupOf op
  · obtain ⟨children, rfl⟩ := h
    exact .inl ⟨children, rfl, parts_group op children⟩
  · refine .inr ⟨h, ?_⟩
    match f with
    | .and none children =>
      have hop : op ≠ .and := fun e => h ⟨children, by rw [e, group]⟩
      simp [parts, hop]
    | .or children =>
      have hop : op ≠ .or := fun e => h ⟨children, by rw [e, group]⟩
      simp [parts, hop]
    | .and (some _) _ | .compare .. | .presence .. | .entity .. | .timeRange .. | .view .. =>
      simp [parts]

/-- What a well-formed filter contributes to a group is there, is well formed, and needs no
brackets. -/
theorem WellFormed.parts {f : Filter} (h : f.WellFormed) (op : LogicalOp) :
    f.parts op ≠ [] ∧ ∀ g ∈ f.parts op, g.WellFormed ∧ ¬g.IsGroupOf op := by
  obtain ⟨children, rfl, hparts⟩ | ⟨hgroup, hparts⟩ := eq_group_or_parts_eq op f
  · rw [hparts]
    cases op with
    | and =>
      obtain ⟨⟨hlength, hflat⟩, hall⟩ := wellFormed_and.mp h
      exact ⟨List.ne_nil_of_length_pos (by omega), fun g hg => ⟨hall g hg, hflat g hg⟩⟩
    | or =>
      obtain ⟨⟨hlength, hflat⟩, hall⟩ := wellFormed_or.mp h
      exact ⟨List.ne_nil_of_length_pos (by omega), fun g hg => ⟨hall g hg, hflat g hg⟩⟩
  · rw [hparts]
    exact ⟨by simp, by simpa using ⟨h, hgroup⟩⟩

theorem WellFormed.fold {f g : Filter} (hf : f.WellFormed) (hg : g.WellFormed)
    (op : LogicalOp) : (fold f g op).WellFormed := by
  obtain ⟨hfne, hf⟩ := hf.parts op
  obtain ⟨hgne, hg⟩ := hg.parts op
  refine wellFormed_group ?_ fun h hh => (List.mem_append.mp hh).elim (hf h) (hg h)
  have hflength := List.length_pos_iff.mpr hfne
  have hglength := List.length_pos_iff.mpr hgne
  rw [List.length_append]
  omega

theorem wellFormed_merged (op : LogicalOp) {fs : List Filter} (hne : fs ≠ [])
    (h : ∀ f ∈ fs, f.WellFormed) : (merged op fs).WellFormed := by
  match fs with
  | [] => exact absurd rfl hne
  | [f] => exact h f (by simp)
  | f :: g :: fs =>
    have hall : ∀ k ∈ (f :: g :: fs).flatMap (Filter.parts op),
        k.WellFormed ∧ ¬k.IsGroupOf op := by
      intro k hk
      obtain ⟨i, hi, hk⟩ := List.mem_flatMap.mp hk
      exact ((h i hi).parts op).2 k hk
    refine wellFormed_group ?_ hall
    have hflength := List.length_pos_iff.mpr ((h f (by simp)).parts op).1
    have hglength := List.length_pos_iff.mpr ((h g (by simp)).parts op).1
    simp only [List.flatMap_cons, List.length_append]
    omega

theorem wellFormed_combine {op : LogicalOp} {fs : List Filter} {f : Filter}
    (h : ∀ g ∈ fs, g.WellFormed) (hf : combine op fs = some f) : f.WellFormed := by
  have hne : fs ≠ [] := by
    rintro rfl
    cases hf
  rw [combine_eq_merged op hne] at hf
  exact Option.some.inj hf ▸ wellFormed_merged op hne h

end CalendarQuery.Filter

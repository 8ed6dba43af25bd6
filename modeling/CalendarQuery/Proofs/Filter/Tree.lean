import CalendarQuery.Proofs.Comparison.Written
import CalendarQuery.Proofs.Filter.Normal

/-!
# The syntax tree of canonical text

The canonical text of a filter is spelled by a syntax tree that denotes the normal form of the
filter: the parentheses that are written keep the groups apart, and no part runs into another.

* `Filter.Restorable`: the filters whose leaves can be written as expressions.
* `Grammar.exists_factor`, `Grammar.exists_level`: a syntax tree for a filter, and for the children
  of a group. `writes_leaf`, `writes_group`, `writes_level` build them.
* `Grammar.exists_expression`: the syntax tree of the whole text.
-/

namespace CalendarQuery

open TokenStream

namespace Filter

mutual

/-- A filter made of non-empty groups over leaves that can be written as expressions. -/
def Restorable (h : Hierarchy) : Filter → Prop
  | .and _ children => children ≠ [] ∧ RestorableEach h children
  | .or children => children ≠ [] ∧ RestorableEach h children
  | f => f.RestorableLeaf h

/-- Several such filters. -/
def RestorableEach (h : Hierarchy) : List Filter → Prop
  | [] => True
  | f :: fs => Restorable h f ∧ RestorableEach h fs

end

/-- The tokens of the children of a group behind the first. -/
def furtherTokens (op : LogicalOp) (fs : List Filter) : List Token :=
  fs.flatMap fun f => .symbol op.symbol :: encloseTokens f f.tokens

theorem groupTokens_cons (op : LogicalOp) (f : Filter) (fs : List Filter) :
    groupTokens op (f :: fs) = encloseTokens f f.tokens ++ furtherTokens op fs := by
  induction fs generalizing f with
  | nil => simp [groupTokens, furtherTokens]
  | cons g fs ih => rw [groupTokens, ih]; simp [furtherTokens]

end Filter

namespace Grammar

open Compilation CalendarQuery.Filter

/-! ## What follows a part -/

/-- A written operator is a spelling of it. -/
theorem logicalOp?_symbol (op : LogicalOp) : (Token.symbol op.symbol).logicalOp? = some op := by
  cases op <;> rfl

theorem ends_symbol {c : Char} (s : TokenStream) (h : c ≠ '=') :
    Comparison.Ends (s.cons (.symbol c)) :=
  ⟨readable_cons _ _, by simp, by simpa using h⟩

theorem ends_done : Comparison.Ends .done := ⟨readable_done, by simp, by simp⟩

theorem ends_further (op : LogicalOp) (fs : List Filter) {s : TokenStream}
    (hs : Comparison.Ends s) : Comparison.Ends (s.append (furtherTokens op fs)) := by
  cases fs with
  | nil => exact hs
  | cons f fs =>
    simp only [furtherTokens, List.flatMap_cons, List.cons_append, append_cons]
    exact ends_symbol _ (by cases op <;> decide)

/-! ## The syntax tree of a filter -/

/-- The syntax tree of a filter as a factor. -/
structure Factor.Writes (c : Selection) (t : Factor) (f : Filter) : Prop where
  spells : ∀ s, Comparison.Ends s → (s.append (encloseTokens f f.tokens)).Given →
    t.Spells (s.append (encloseTokens f f.tokens)) s
  nesting : t.nesting = if f.isGroup then f.parentheses + 1 else 0
  denote : ∀ m, (t.denote c.compile).outcome m = (.ok f.normal, m)

/-- The syntax tree of the children of a group. -/
structure Level.Writes (c : Selection) (level : Level) (op : LogicalOp) (fs : List Filter) :
    Prop where
  spells : ∀ s, Comparison.Ends s → (s.append (groupTokens op fs)).Given →
    level.Spells (s.append (groupTokens op fs)) s
  nesting : level.nesting = enclosing fs
  denote : ∀ m, (level.denote c.compile).outcome m = (.ok (merged op (normalEach fs)), m)

/-- The syntax trees of the children of a group behind the first. -/
structure WriteFurther (c : Selection) (ts : List Factor) (op : LogicalOp) (fs : List Filter) :
    Prop where
  spells : ∀ s, Comparison.Ends s → (s.append (furtherTokens op fs)).Given →
    SpellFurther op ts (s.append (furtherTokens op fs)) s
  nesting : nestingEach ts = enclosing fs
  denote : ∀ m, (denoteEach c.compile ts).outcome m = (.ok (normalEach fs), m)

variable {c : Selection}

theorem writes_leaf {f : Filter} (hf : f.RestorableLeaf c.hierarchy) :
    Factor.Writes c (.comparison f.toComparison) f := by
  have hgroup : f.isGroup = false := by
    cases f <;> simp_all [isGroup, RestorableLeaf]
  refine ⟨fun s hs hgiven => ?_, by simp [hgroup, Factor.nesting], fun m => ?_⟩
  · rw [encloseTokens, hgroup] at hgiven ⊢
    exact (Comparison.reads_leaf hf hs).accepts hgiven
  · rw [normal_leaf hgroup]
    exact c.outcome_compile_leaf hf m

/-- A group in parentheses. -/
theorem writes_group {f : Filter} {level : Level} {op : LogicalOp} {fs : List Filter}
    (h : level.Writes c op fs) (htokens : f.tokens = groupTokens op fs)
    (hgroup : f.isGroup = true) (hnesting : f.parentheses = enclosing fs)
    (hnormal : f.normal = merged op (normalEach fs)) : Factor.Writes c (.group level) f := by
  refine ⟨fun s hs hgiven => ?_, ?_, fun m => ?_⟩
  · have hstream : s.append (encloseTokens f f.tokens) =
        ((s.cons (.symbol ')')).append (groupTokens op fs)).cons (.symbol '(') := by
      simp [encloseTokens, hgroup, htokens]
    rw [hstream] at hgiven ⊢
    exact ⟨_, rfl, h.spells _ (ends_symbol s (by decide)) hgiven.of_cons⟩
  · simp [Factor.nesting, h.nesting, hgroup, hnesting]
  · rw [hnormal]
    exact h.denote m

/-- The children of a group as one level. -/
theorem writes_level {t : Factor} {ts : List Factor} (op : LogicalOp) {f : Filter}
    {fs : List Filter} (hf : t.Writes c f) (hfs : WriteFurther c ts op fs) :
    Level.Writes c (.mk t op ts) op (f :: fs) := by
  refine ⟨fun s hs hgiven => ?_, ?_, fun m => ?_⟩
  · rw [groupTokens_cons, append_append] at hgiven ⊢
    exact ⟨_, hf.spells _ (ends_further op fs hs) hgiven, hfs.spells s hs hgiven.of_append⟩
  · rw [Level.nesting, hf.nesting, hfs.nesting, enclosing]
  · rw [Level.denote, outcome_bind_of_ok (hf.denote m), outcome_bind_of_ok (hfs.denote m),
      normalEach, folded_eq_merged]
    rfl

theorem writes_further_nil (op : LogicalOp) : WriteFurther c [] op [] :=
  ⟨fun _ _ _ => rfl, rfl, fun _ => rfl⟩

theorem writes_further_cons {t : Factor} {ts : List Factor} {op : LogicalOp} {f : Filter}
    {fs : List Filter} (hf : t.Writes c f) (hfs : WriteFurther c ts op fs) :
    WriteFurther c (t :: ts) op (f :: fs) := by
  refine ⟨fun s hs hgiven => ?_, ?_, fun m => ?_⟩
  · have hstream : s.append (furtherTokens op (f :: fs)) =
        ((s.append (furtherTokens op fs)).append (encloseTokens f f.tokens)).cons
          (.symbol op.symbol) := by simp [furtherTokens]
    rw [hstream] at hgiven ⊢
    have hgiven' := hgiven.of_cons
    exact ⟨_, _, _, rfl, logicalOp?_symbol op, hf.spells _ (ends_further op fs hs) hgiven',
      hfs.spells s hs hgiven'.of_append⟩
  · rw [nestingEach, hf.nesting, hfs.nesting, enclosing]
  · rw [denoteEach, outcome_bind_of_ok (hf.denote m), outcome_bind_of_ok (hfs.denote m)]
    rfl

mutual

theorem exists_factor (f : Filter) (hf : f.Restorable c.hierarchy) :
    ∃ t : Factor, t.Writes c f := by
  cases f with
  | and name children =>
    obtain ⟨level, hl⟩ := exists_level .and children hf.1 hf.2
    exact ⟨.group level, writes_group hl rfl rfl rfl rfl⟩
  | or children =>
    obtain ⟨level, hl⟩ := exists_level .or children hf.1 hf.2
    exact ⟨.group level, writes_group hl rfl rfl rfl rfl⟩
  | view name filter => exact hf.elim
  | compare => exact ⟨_, writes_leaf hf⟩
  | presence => exact ⟨_, writes_leaf hf⟩
  | entity => exact ⟨_, writes_leaf hf⟩
  | timeRange => exact ⟨_, writes_leaf hf⟩

theorem exists_level (op : LogicalOp) (fs : List Filter) (hne : fs ≠ [])
    (hfs : RestorableEach c.hierarchy fs) : ∃ level : Level, level.Writes c op fs := by
  cases fs with
  | nil => exact absurd rfl hne
  | cons f fs =>
    obtain ⟨t, ht⟩ := exists_factor f hfs.1
    obtain ⟨ts, hts⟩ := exists_further op fs hfs.2
    exact ⟨_, writes_level _ ht hts⟩

theorem exists_further (op : LogicalOp) (fs : List Filter)
    (hfs : RestorableEach c.hierarchy fs) : ∃ ts : List Factor, WriteFurther c ts op fs := by
  cases fs with
  | nil => exact ⟨[], writes_further_nil op⟩
  | cons f fs =>
    obtain ⟨t, ht⟩ := exists_factor f hfs.1
    obtain ⟨ts, hts⟩ := exists_further op fs hfs.2
    exact ⟨t :: ts, writes_further_cons ht hts⟩

end

/-- The syntax tree of a filter as a whole expression. -/
theorem exists_expression {c : Selection} {f : Filter} (hf : f.Restorable c.hierarchy) :
    ∃ level : Level, level.Spells (ofString f.text) .done ∧ level.nesting = f.parentheses ∧
      ∀ m, (level.denote c.compile).outcome m = (.ok f.normal, m) := by
  have hgiven := given_ofString f.text
  rw [ofString_text] at hgiven ⊢
  by_cases hgroup : f.isGroup = true
  · cases f with
    | and name children =>
      obtain ⟨level, hl⟩ := exists_level .and children hf.1 hf.2
      exact ⟨level, hl.spells _ ends_done hgiven, hl.nesting, hl.denote⟩
    | or children =>
      obtain ⟨level, hl⟩ := exists_level .or children hf.1 hf.2
      exact ⟨level, hl.spells _ ends_done hgiven, hl.nesting, hl.denote⟩
    | _ => simp [isGroup] at hgroup
  · obtain ⟨t, ht⟩ := exists_factor f hf
    have hl := writes_level _ ht (writes_further_nil .and)
    have htokens : groupTokens .and [f] = f.tokens := by simp [groupTokens, encloseTokens, hgroup]
    have hleaf : f.parentheses = 0 := by cases f <;> simp_all [isGroup, parentheses]
    refine ⟨_, ?_, ?_, hl.denote⟩
    · rw [← htokens] at hgiven ⊢
      exact hl.spells _ ends_done hgiven
    · rw [hl.nesting, enclosing, enclosing, if_neg hgroup, hleaf]
      rfl

end Grammar

end CalendarQuery

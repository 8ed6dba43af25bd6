import CalendarQuery.Proofs.Comparison.Plain
import CalendarQuery.Proofs.Expression.Grammar

/-!
# The parentheses of an expression and of its filter

The canonical text of a plain filter has no more parentheses than the expression that it was
compiled from, if a list of several words is counted as a pair of them: grouping takes parentheses
away and adds none, but a list becomes a group of its own.

* `Grammar.Level.brackets`: the nesting of an expression, lists counted. It exceeds the nesting by
  one at most.
* `Grammar.plain_level`: the filter of an expression, if it is plain.
-/

namespace CalendarQuery.Grammar

open Compilation CalendarQuery.Filter

mutual

/-- The number of parentheses around the innermost part of a factor, if a list of several words
counts as a pair. -/
def Factor.brackets : Factor → Nat
  | .comparison c => c.brackets
  | .group level => level.brackets + 1

/-- The greatest number of the factors of a level. -/
def Level.brackets : Level → Nat
  | .mk first _ others => max first.brackets (bracketsEach others)

/-- The greatest number of several factors. -/
def bracketsEach : List Factor → Nat
  | [] => 0
  | t :: ts => max t.brackets (bracketsEach ts)

end

mutual

theorem Factor.brackets_le (t : Factor) : t.brackets ≤ t.nesting + 1 := by
  cases t with
  | comparison c =>
    rw [Factor.brackets, Factor.nesting]
    exact c.brackets_le
  | group level =>
    rw [Factor.brackets, Factor.nesting]
    exact Nat.succ_le_succ level.brackets_le

theorem Level.brackets_le (level : Level) : level.brackets ≤ level.nesting + 1 := by
  obtain ⟨first, op, others⟩ := level
  have hfirst := first.brackets_le
  have hothers := bracketsEach_le others
  rw [Level.brackets, Level.nesting]
  omega

theorem bracketsEach_le (ts : List Factor) : bracketsEach ts ≤ nestingEach ts + 1 := by
  cases ts with
  | nil => exact Nat.zero_le _
  | cons t ts =>
    have hfirst := t.brackets_le
    have hothers := bracketsEach_le ts
    rw [bracketsEach, nestingEach]
    omega

end

variable {s : Selection} {known : String → Prop}

mutual

theorem plain_factor (hknown : s.hierarchy.Knows known) (t : Factor) {ts ts' : TokenStream}
    {m m' : Memos} {f : Filter} (hs : t.Spells ts ts')
    (hd : (t.denote s.compile).outcome m = (.ok f, m')) (hplain : f.Plain) :
    f.WellFormed ∧ f.Everywhere (Legible known) ∧ enclosing [f] ≤ t.brackets := by
  cases t with
  | comparison c =>
    obtain ⟨l, l', hl, hread, -⟩ := hs
    obtain ⟨hliteral, hadmissible⟩ :=
      Comparison.literal_of_readNext hread ⟨ts, hl, fun _ _ => trivial⟩
    exact Selection.compile_plain hknown hliteral hadmissible hd hplain
  | group level =>
    obtain ⟨ts₁, -, hsp⟩ := hs
    obtain ⟨hf, hlegible, hle⟩ := plain_level hknown level hsp hd hplain
    refine ⟨hf, hlegible, ?_⟩
    rw [enclosing_singleton, Factor.brackets]
    split <;> omega

theorem plain_level (hknown : s.hierarchy.Knows known) (level : Level) {ts ts' : TokenStream}
    {m m' : Memos} {f : Filter} (hs : level.Spells ts ts')
    (hd : (level.denote s.compile).outcome m = (.ok f, m')) (hplain : f.Plain) :
    f.WellFormed ∧ f.Everywhere (Legible known) ∧ f.parentheses ≤ level.brackets := by
  obtain ⟨first, op, others⟩ := level
  obtain ⟨ts₁, hsp, hsp'⟩ := hs
  obtain ⟨g, m₁, hg, hd⟩ := bind_eq_ok.mp hd
  obtain ⟨gs, m₂, hgs, hd⟩ := bind_eq_ok.mp hd
  obtain ⟨rfl, -⟩ := Compilation.pure_eq_ok.mp hd
  rw [folded_eq_merged] at hplain ⊢
  obtain ⟨hplain, hplains⟩ := List.forall_mem_cons.mp (plain_merged.mp hplain)
  obtain ⟨hg, hlegible, hle⟩ := plain_factor hknown first hsp hg hplain
  obtain ⟨hgs, hles⟩ := plain_each hknown others hsp' hgs hplains
  have hall : ∀ k ∈ g :: gs, k.WellFormed ∧ k.Everywhere (Legible known) :=
    List.forall_mem_cons.mpr ⟨⟨hg, hlegible⟩, hgs⟩
  -- merging takes pairs away and adds none, so that the bounds of the factors are enough
  refine ⟨wellFormed_merged op (by simp) fun k hk => (hall k hk).1,
    (everywhere_merged (legible_group known) op _).mpr fun k hk => (hall k hk).2,
    Nat.le_trans (parentheses_merged_le op (g :: gs)) ?_⟩
  rw [enclosing, ← enclosing_singleton, Level.brackets]
  omega

theorem plain_each (hknown : s.hierarchy.Knows known) (factors : List Factor) {op : LogicalOp}
    {ts ts' : TokenStream} {m m' : Memos} {fs : List Filter} (hs : SpellFurther op factors ts ts')
    (hd : (denoteEach s.compile factors).outcome m = (.ok fs, m')) (hplain : ∀ f ∈ fs, f.Plain) :
    (∀ f ∈ fs, f.WellFormed ∧ f.Everywhere (Legible known)) ∧
      enclosing fs ≤ bracketsEach factors := by
  cases factors with
  | nil =>
    obtain ⟨rfl, -⟩ := Compilation.pure_eq_ok.mp hd
    exact ⟨by simp, Nat.le_refl _⟩
  | cons t factors =>
    obtain ⟨u, ts₁, ts₂, -, -, hsp, hsp'⟩ := hs
    obtain ⟨g, m₁, hg, hd⟩ := bind_eq_ok.mp hd
    obtain ⟨gs, m₂, hgs, hd⟩ := bind_eq_ok.mp hd
    obtain ⟨rfl, -⟩ := Compilation.pure_eq_ok.mp hd
    obtain ⟨hplain, hplains⟩ := List.forall_mem_cons.mp hplain
    obtain ⟨hg, hlegible, hle⟩ := plain_factor hknown t hsp hg hplain
    obtain ⟨hgs, hles⟩ := plain_each hknown factors hsp' hgs hplains
    refine ⟨List.forall_mem_cons.mpr ⟨⟨hg, hlegible⟩, hgs⟩, ?_⟩
    rw [enclosing, ← enclosing_singleton, bracketsEach]
    omega

end

end CalendarQuery.Grammar

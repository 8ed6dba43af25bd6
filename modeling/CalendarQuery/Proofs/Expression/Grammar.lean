import CalendarQuery.Expression.Parser
import CalendarQuery.Proofs.Comparison.Uniform

/-!
# The grammar of expressions

An expression is a level; a level is one or more factors with one logical operator between them; a
factor is a comparison or a level in parentheses.

* `Grammar.Factor`, `Grammar.Level`: the syntax trees.
* `Level.Spells`: the tokens that a tree stands for, between two streams. A comparison stands for
  the tokens that the reader of comparisons takes.
* `Level.nesting`: how deep the parentheses of a tree are nested.
* `Level.denote`: the filter that a tree stands for, its comparisons compiled from left to right.
* `Grammar.Opened`: what stands before a level inside parentheses that are still open.

No stack occurs here.
-/

namespace CalendarQuery.Grammar

mutual

/-- A comparison, or a level in parentheses. -/
inductive Factor
  | comparison (comparison : Comparison)
  | group (level : Level)

/-- A factor and the further factors of its level, all joined by `op`. -/
inductive Level
  | mk (first : Factor) (op : LogicalOp) (others : List Factor)

end

/-- The operator of a level. It does not matter if there is only one factor. -/
def Level.op : Level → LogicalOp
  | .mk _ op _ => op

/-- The factors of a level after the first. -/
def Level.others : Level → List Factor
  | .mk _ _ others => others

mutual

/-- The factor stands for the tokens of `s` up to those of `s'`. -/
def Factor.Spells : Factor → (s s' : TokenStream) → Prop
  | .comparison c, s, s' => Reader.Accepts Comparison.readNext s c s'
  | .group level, s, s' =>
    ∃ s₁, s = s₁.cons (.symbol '(') ∧ level.Spells s₁ (s'.cons (.symbol ')'))

/-- The level stands for the tokens of `s` up to those of `s'`. -/
def Level.Spells : Level → (s s' : TokenStream) → Prop
  | .mk first op others, s, s' => ∃ s₁, first.Spells s s₁ ∧ SpellFurther op others s₁ s'

/-- The factors, each behind a spelling of the operator, stand for the tokens of `s` up to those
of `s'`. -/
def SpellFurther (op : LogicalOp) : List Factor → (s s' : TokenStream) → Prop
  | [], s, s' => s = s'
  | f :: fs, s, s' => ∃ t s₁ s₂, s = s₁.cons t ∧ t.logicalOp? = some op ∧ f.Spells s₁ s₂ ∧
      SpellFurther op fs s₂ s'

end

mutual

/-- The number of parentheses around the innermost part of a factor. -/
def Factor.nesting : Factor → Nat
  | .comparison _ => 0
  | .group level => level.nesting + 1

/-- The greatest nesting of the factors of a level. -/
def Level.nesting : Level → Nat
  | .mk first _ others => max first.nesting (nestingEach others)

/-- The greatest nesting of several factors. -/
def nestingEach : List Factor → Nat
  | [] => 0
  | f :: fs => max f.nesting (nestingEach fs)

end

/-- A filter and further ones, folded from the left under one operator. -/
def folded (op : LogicalOp) (f : Filter) (fs : List Filter) : Filter :=
  fs.foldl (fun acc g => Filter.fold acc g op) f

@[simp] theorem folded_nil (op : LogicalOp) (f : Filter) : folded op f [] = f := rfl

@[simp] theorem folded_cons (op : LogicalOp) (f g : Filter) (fs : List Filter) :
    folded op f (g :: fs) = folded op (Filter.fold f g op) fs := rfl

section Denotation

variable (compile : Comparison → Compilation Filter)

mutual

/-- The filter of a factor. -/
def Factor.denote : Factor → Compilation Filter
  | .comparison c => compile c
  | .group level => level.denote

/-- The filter of a level: that of its factor, or those of its factors folded from the left. -/
def Level.denote : Level → Compilation Filter
  | .mk first op others => do
    let f ← first.denote
    let fs ← denoteEach others
    return folded op f fs

/-- The filters of several factors, from left to right. -/
def denoteEach : List Factor → Compilation (List Filter)
  | [] => return []
  | f :: fs => do
    let g ← f.denote
    let gs ← denoteEach fs
    return g :: gs

end

end Denotation

/-- What stands before a level, for each parenthesis that is open, the outermost first: the factors
of the level around it, if any come before that parenthesis. -/
abbrev Opened := List (Option Level)

namespace Opened

/-- What stands before stands for the tokens of `s` up to those of `s'`, each parenthesis and the
operator before it included. -/
def Spells : Opened → (s s' : TokenStream) → Prop
  | [], s, s' => s = s'
  | none :: inner, s, s' => ∃ s₁, s = s₁.cons (.symbol '(') ∧ Spells inner s₁ s'
  | some level :: inner, s, s' => ∃ t s₁, level.Spells s ((s₁.cons (.symbol '(')).cons t) ∧
      t.logicalOp? = some level.op ∧ Spells inner s₁ s'

/-- All levels stay within the greatest nesting if `n` more parentheses are around them. -/
def Fits (n : Nat) : Opened → Prop
  | [] => True
  | before :: inner => n < maxNesting ∧
      (∀ level ∈ before, n + level.nesting ≤ maxNesting) ∧ Fits (n + 1) inner

/-- The comparisons that stand before, compiled from left to right. -/
def accept (compile : Comparison → Compilation Filter) : Opened → Compilation Unit
  | [] => return ()
  | none :: inner => accept compile inner
  | some level :: inner => do
    let _ ← level.denote compile
    accept compile inner

end Opened

end CalendarQuery.Grammar

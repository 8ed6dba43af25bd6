import CalendarQuery.Proofs.Calls
import CalendarQuery.Proofs.Expression.Judgment
import CalendarQuery.Proofs.Sort

/-!
# What is compiled is well formed

* `Compiler.keeps_wellFormed`: a compilation, in whatever context, keeps what is remembered well
  formed and gives a well-formed filter.
* `Compiler.wellFormed_run`: whatever calls have been made, filters, what is remembered for views,
  and sort keys are well formed.
-/

namespace CalendarQuery.Compiler

open Compilation

variable {c : Compiler} {explicit : Bool} {levels : Nat} {resolving : List String} {text : String}

theorem keeps_wellFormed : Keeps Filter.WellFormed (fun _ => True) Filter.WellFormed
    (c.compileWithin explicit levels resolving text) := by
  have hattached : ∀ {levels : Nat} {resolving : List String} {text : String},
      (∀ vpath owner expression, Keeps Filter.WellFormed (fun _ => True) Filter.WellFormed
        (c.attachedWithin explicit levels resolving vpath owner expression)) →
      Keeps Filter.WellFormed (fun _ => True) Filter.WellFormed
        (c.compileWithin explicit levels resolving text) := fun h =>
    keeps_of_attached (Q := fun _ => True) Filter.inherited_wellFormed (fun _ => trivial)
      c.hierarchy.answers_true (fun _ _ _ _ => h _ _ _) (fun _ _ _ => h _ _ _)
      (fun _ _ _ => trivial) (Reading.quoting_ofString _)
  induction levels generalizing resolving text with
  | zero => exact hattached fun _ _ _ => Keeps.throw trivial
  | succ levels ih => exact hattached fun _ _ _ => ih.mapError fun _ _ => trivial

theorem all_after {m : Memos} (hm : m.All Filter.WellFormed) (call : Call) :
    (c.after m call).All Filter.WellFormed := by
  rw [after, filter_snd]
  exact (keeps_wellFormed m hm).1

theorem all_run {m : Memos} (hm : m.All Filter.WellFormed) (calls : List Call) :
    (c.run m calls).All Filter.WellFormed := by
  induction calls generalizing m with
  | nil => exact hm
  | cons call calls ih => exact ih (all_after hm call)

/-- Whatever calls have been made before, the filter of a call is well formed at all of its places,
and so are the filters remembered for views; and the paths of sort keys are well formed. -/
theorem wellFormed_run (c : Compiler) (calls : List Call) :
    (∀ (call : Call) (f : Filter) (m : Memos),
      c.filter call.text call.explicit call.source (c.run .empty calls) = (.filter f, m) →
        ∀ g ∈ f.subtrees, g.Sane) ∧
    (∀ (view : String) (f : Filter), (c.run .empty calls).find? view = some f →
      ∀ g ∈ f.subtrees, g.Sane) ∧
    ∀ (text : String) (keys : List SortKey), c.sort text = .sortKeys keys →
      ∀ k ∈ keys, k.path.WellFormed := by
  have hall : (c.run .empty calls).All Filter.WellFormed := all_run (Memos.all_empty _) calls
  refine ⟨fun call f m h => ?_, fun view f h => hall h, fun text keys h => ?_⟩
  · have hcompile := filter_eq_filter.mp h
    rw [compile] at hcompile
    exact (keeps_wellFormed _ hall).2.1 f (congrArg Prod.fst hcompile)
  · unfold sort at h
    split at h
    · rename_i hkeys
      cases h
      exact parseSort_wellFormed hkeys
    · cases h

end CalendarQuery.Compiler

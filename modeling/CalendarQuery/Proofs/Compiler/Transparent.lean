import CalendarQuery.Proofs.Calls
import CalendarQuery.Proofs.Expression.Judgment
import CalendarQuery.Proofs.Transparent

/-!
# Views may be remembered

What a view comes to does not depend on where it was asked for first: neither on the levels that were
left there nor on the paths that were being resolved. Both only decide whether a compilation fails.

* `Compiler.recompile`: an expression whose views are computed, never looked up. Its depth is the only
  reason to fail that it has of its own.
* `Compiler.transparent_compileWithin`: an expression, in whatever context, gives what it comes to.
* `Compiler.filter_run_transparent`: after calls that were all explicit or all not, an expression gives
  what it gave before them, and views have the filters of their virtual paths.
-/

namespace CalendarQuery.Compiler

open Compilation

variable (c : Compiler)

/-- An expression, if its attached filters go less deep than `depth`; views are computed, and no path
counts as being resolved. -/
def recompile (explicit : Bool) : (depth : Nat) → String → Compilation Filter
  | 0, _ => throw (.aliasDepthExceeded 0)
  | depth + 1, text =>
    let s : Selection := ⟨c.hierarchy, explicit, [], fun _ _ => recompile explicit depth⟩
    if c.limits.admits text then parseExpression (s.compileBy s.computed) text
    else throw (.tooLong text.utf8ByteSize c.limits.maxExpressionLength)

/-- The selection for the comparisons of such an expression. -/
def recomputing (explicit : Bool) (depth : Nat) : Selection :=
  ⟨c.hierarchy, explicit, [], fun _ _ => c.recompile explicit depth⟩

/-- What views come to. -/
def views (explicit : Bool) (name : String) (depth : Nat) : Compilation Filter :=
  (c.recomputing explicit depth).members name

variable {c} {explicit : Bool} {levels : Nat} {resolving : List String} {text : String}

/-! ## One expression -/

/-- A selection beside those that compute views, given its attached filters. -/
theorem beside_recomputing
    (h : ∀ vpath owner expression, Transparent (c.views explicit) (fun _ => True)
      (c.attachedWithin explicit levels resolving vpath owner expression)
      fun depth => c.recompile explicit depth expression) (narrow : Bool) :
    Selection.Beside (fun _ => True) (fun V d e => Transparent (c.views explicit) V d e)
      (fun _ => True) (fun _ => True) (fun _ => True) narrow
      (c.selection explicit levels resolving) (c.recomputing explicit) :=
  Selection.beside_of_hierarchy (judgment_transparent _) Filter.inherited_true (fun _ => trivial)
    (fun _ => rfl) (fun _ => rfl) (Hierarchy.answers_true _) (fun _ => Transparent.throw _ _)
    (fun _ _ => List.not_mem_nil) (fun _ _ _ _ _ => h _ _ _) (fun _ _ _ _ => h _ _ _)

section Views

variable
  (hs : Selection.Beside (fun _ => True) (fun V d e => Transparent (c.views explicit) V d e)
    (fun _ => True) (fun _ => True) (fun _ => True) true (c.selection explicit levels resolving)
    (c.recomputing explicit))

include hs

/-- The members of a view beside those of computed ones. -/
theorem transparent_members {name : String} {view : View}
    (hview : c.hierarchy.view name = .ok (some view)) :
    Transparent (c.views explicit) (fun _ => True)
      ((c.selection explicit levels resolving).compile (.virtualPaths view.collections))
      fun depth => (c.recomputing explicit depth).members name := by
  have hmembers : ∀ depth, (c.recomputing explicit depth).members name =
      (c.recomputing explicit depth).compile (.virtualPaths view.collections) :=
    fun depth => Selection.members_of_view hview
  simp only [hmembers]
  exact hs.judgment.bind (hs.judgment.mapM fun path _ => hs.resolve trivial)
    fun _ hfs => hs.together hfs

/-- Views beside computed ones. -/
theorem transparent_view (hnamed : c.hierarchy.Named) (name : String) :
    Transparent (c.views explicit) (fun _ => True)
      ((c.selection explicit levels resolving).viewFilter name)
      fun depth => (c.recomputing explicit depth).computed name := by
  obtain ⟨view, hview⟩ | ⟨cause, hfails⟩ :=
    (c.selection explicit levels resolving).view_or_viewFilter_eq_throw name
  · obtain rfl := hnamed hview
    exact Selection.transparent_viewFilter hview (transparent_members hs hview)
  · rw [hfails]
    exact Transparent.throw _ _

end Views

/-- One level of attached filters, given the levels below it. -/
theorem transparent_of_attached (hnamed : c.hierarchy.Named)
    (h : ∀ vpath owner expression, Transparent (c.views explicit) (fun _ => True)
      (c.attachedWithin explicit levels resolving vpath owner expression)
      fun depth => c.recompile explicit depth expression) :
    Transparent (c.views explicit) (fun _ => True) (c.compileWithin explicit levels resolving text)
      fun depth => c.recompile explicit depth text := by
  have hs := beside_recomputing h
  have hjudged := judge_compileWithin hs (fun _ => trivial) (transparent_view (hs true) hnamed)
    (Reading.quoting_ofString text)
  exact hjudged.of_succ fun _ => rfl

/-- An expression, in whatever context, gives what it comes to. -/
theorem transparent_compileWithin (hnamed : c.hierarchy.Named) :
    Transparent (c.views explicit) (fun _ => True) (c.compileWithin explicit levels resolving text)
      fun depth => c.recompile explicit depth text := by
  induction levels generalizing resolving text with
  | zero => exact transparent_of_attached hnamed fun _ _ _ => Transparent.throw _ _
  | succ levels ih => exact transparent_of_attached hnamed fun _ owner _ => ih.mapError _

theorem transparent_attachedWithin (hnamed : c.hierarchy.Named) (vpath owner expression : String) :
    Transparent (c.views explicit) (fun _ => True)
      (c.attachedWithin explicit levels resolving vpath owner expression)
      fun depth => c.recompile explicit depth expression := by
  cases levels with
  | zero => exact Transparent.throw _ _
  | succ levels => exact (transparent_compileWithin hnamed).mapError _

/-! ## Calls -/

/-- A view without collections comes to nothing. -/
theorem collections_ne_nil {name : String} {view : View} {f : Filter}
    {log : List (String × Filter)} (hview : c.hierarchy.view name = .ok (some view))
    (h : Settles (c.views explicit name) f log) : view.collections ≠ [] := by
  intro hnil
  obtain ⟨depth, h⟩ := h
  have hdepth := h depth (Nat.le_refl depth) .empty
  have hview' : (c.recomputing explicit depth).hierarchy.view name = .ok (some view) := hview
  rw [views, Selection.members_of_view hview', hnil] at hdepth
  cases hdepth

/-- Calls that are all explicit, or all not, keep the memos sound. -/
theorem sound_run (hnamed : c.hierarchy.Named) {m : Memos} (hm : m.Sound (c.views explicit))
    (calls : List Call) :
    (c.run m (calls.map fun call => { call with explicit })).Sound (c.views explicit) := by
  induction calls generalizing m with
  | nil => exact hm
  | cons call calls ih =>
    refine ih ?_
    rw [after, filter_snd]
    exact (transparent_compileWithin hnamed).sound hm rfl

/-- Among calls that are all explicit, or all not, it makes no difference what has been remembered: an
expression that compiles before the calls compiles to the same filter after them, and what they
remember for a view is the filter that the list of its virtual paths has before them. -/
theorem filter_run_transparent (store : Store) (limits : Limits) (explicit : Bool)
    (calls : List Call) :
    (∀ (text source : String) (f : Filter) (m : Memos),
      filter ⟨store.hierarchy, limits⟩ text explicit source .empty = (.filter f, m) →
        ∃ m', filter ⟨store.hierarchy, limits⟩ text explicit source (run ⟨store.hierarchy, limits⟩
          .empty (calls.map fun call => { call with explicit })) = (.filter f, m')) ∧
    ∀ (view : View) (source : String) (f g : Filter) (m : Memos),
      store.view? view.name = some view →
      (run ⟨store.hierarchy, limits⟩ .empty (calls.map fun call =>
        { call with explicit })).find? view.name = some f →
      filter ⟨store.hierarchy, limits⟩ (Comparison.virtualPathsText view.collections) explicit source
        .empty = (.filter g, m) → f = g := by
  let c : Compiler := ⟨store.hierarchy, limits⟩
  have hnamed : c.hierarchy.Named := store.named_hierarchy
  have hempty : Memos.empty.Sound (c.views explicit) := Memos.sound_empty
  have hsound := sound_run hnamed hempty calls
  refine ⟨fun text source f m h => ?_, fun view source f g m hview hmemo h => ?_⟩
  · obtain ⟨m', hm'⟩ := (transparent_compileWithin hnamed).again hempty hsound
      (Memos.below_empty _) (filter_eq_filter.mp h)
    exact ⟨m', filter_eq_filter.mpr hm'⟩
  · have hview' : c.hierarchy.view view.name = .ok (some view) := congrArg Except.ok hview
    obtain ⟨log, hf, -⟩ := hsound view.name f hmemo
    have hpaths : view.collections ≠ [] := collections_ne_nil hview' hf
    have hcompile := filter_eq_filter.mp h
    obtain ⟨hlength, -⟩ := compileWithin_eq_ok.mp hcompile
    rw [outcome_compile_of_reads hlength (Comparison.reads_virtualPaths hpaths)] at hcompile
    obtain ⟨-, log', hg, -⟩ := (transparent_members
      (beside_recomputing (transparent_attachedWithin hnamed) true) hview').settles
      hempty hcompile
    exact (hf.unique hg).1

/-- The theorem after an explicit call for the view of the office. -/
theorem filter_run_transparent_office :
    (officeCompiler.run .empty ([officeCall false].map fun call =>
      { call with explicit := true })).find? "v" = some officeView ∧
    officeCompiler.filter "vpath = (\"/f\")" true "" .empty = (.filter officeView, .empty) ∧
    ∃ m', officeCompiler.filter "vpath = (\"/f\")" true "" (officeCompiler.run .empty
      ([officeCall false].map fun call => { call with explicit := true })) =
        (.filter officeView, m') := by
  have hmemo : (officeCompiler.run .empty ([officeCall false].map fun call =>
      { call with explicit := true })).find? "v" = some officeView := by
    have hrun : officeCompiler.run .empty ([officeCall false].map fun call =>
        { call with explicit := true }) = ⟨[("v", officeView)]⟩ := run_office
    rw [hrun]
    rfl
  have hpaths := Comparison.reads_virtualPaths (List.cons_ne_nil "/f" [])
  have htext : Comparison.virtualPathsText ["/f"] = "vpath = (\"/f\")" := by decide
  rw [htext] at hpaths
  have hfilter : officeCompiler.filter "vpath = (\"/f\")" true "" .empty =
      (.filter officeView, .empty) := by
    rw [filter_eq_filter, outcome_compile_of_reads (by decide) hpaths, comparing,
      Selection.compile_virtualPath]
    exact outcome_resolve_office true true .empty
  have htransparent := filter_run_transparent officeStore .standard true [officeCall false]
  exact ⟨hmemo, hfilter, htransparent.1 _ _ _ _ hfilter⟩

end CalendarQuery.Compiler

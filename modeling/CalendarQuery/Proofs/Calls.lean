import CalendarQuery.Proofs.Compiler
import CalendarQuery.Proofs.Expression.Judgment
import CalendarQuery.Proofs.Selection.Leaves

/-!
# Views over several calls

Calls of a compiler share the filters that are remembered for views. A view is computed once, by
the first call that gets to it, and so it depends on whether that call was explicit.

* `Compiler.run`: the memos after calls.
* `Compiler.filledExplicitly`: how the view was computed.
* `Compiler.lists_of_run`: what is remembered for a view after calls.
* `Compiler.filter_view_members`: what a view selects after calls, and when hidden collections are
  not among it.
-/

namespace CalendarQuery

/-- A call of a compiler for a filter expression. -/
structure Call where
  text : String
  explicit : Bool
  source : String

/-- Asked for a view, the hierarchy answers with a view of that name. -/
def Hierarchy.Named (h : Hierarchy) : Prop :=
  ∀ {name : String} {view : View}, h.view name = .ok (some view) → view.name = name

theorem Store.named_hierarchy (store : Store) : store.hierarchy.Named := by
  intro name view h
  have hview : store.view? name = some view := Except.ok.inj h
  simpa using List.find?_some hview

namespace Compiler

open Compilation

variable (c : Compiler)

/-- The memos after a call, whatever its outcome. -/
def after (m : Memos) (call : Call) : Memos := (c.filter call.text call.explicit call.source m).2

/-- The memos after calls, one after the other. -/
def run (m : Memos) (calls : List Call) : Memos := calls.foldl c.after m

/-- The first call after which the view has a filter, if there is one, is explicit. -/
def filledExplicitly (view : String) : Memos → List Call → Bool
  | _, [] => false
  | m, call :: calls =>
    if ((c.after m call).find? view).isSome then call.explicit
    else filledExplicitly view (c.after m call) calls

/-- The collections that a collection path selects, if it resolves. -/
def collectionLeaves (explicit : Bool) (path : String) : Option (List String) :=
  ((c.comparing explicit (.collectionPaths [path])).outcome .empty).1.toOption.map Filter.leaves

/-- The filter has a member for each collection of the view, in order, which selects what the
collection path selects. -/
def Lists (explicit : Bool) (name : String) (f : Filter) : Prop :=
  ∃ view, c.hierarchy.view name = .ok (some view) ∧
    f.memberLeaves.map some = view.collections.map (c.collectionLeaves explicit)

variable {c} {explicit : Bool} {levels : Nat} {resolving : List String} {text : String}

/-! ## Members -/

theorem comparing_collectionPath (path : String) : c.comparing explicit (.collectionPaths [path]) =
    (c.selection explicit c.limits.maxAliasDepth []).collectionPath path :=
  Selection.compile_collectionPath path

/-- The call for a collection path selects its collections, whatever the memos. -/
theorem filter_collectionPath {path source : String}
    (hlength : c.limits.admits (Filter.inCollection path).text = true) (m : Memos) :
    (c.filter (Filter.inCollection path).text explicit source m).1.toFilter.toOption.map
        Filter.leaves = c.collectionLeaves explicit path ∧
      (c.filter (Filter.inCollection path).text explicit source m).2 = m := by
  have hreads := Comparison.reads_collectionPath path .done
  rw [← TokenStream.ofString_text] at hreads
  have hstill : Still (c.comparing explicit (.collectionPaths [path])) := by
    rw [comparing_collectionPath]
    exact Selection.still_collectionPath _ path
  unfold filter collectionLeaves
  rw [outcome_compile_of_reads hlength hreads, hstill.outcome_eq m .empty]
  rcases ((c.comparing explicit (.collectionPaths [path])).outcome .empty).1 with cause | f
  · exact ⟨rfl, rfl⟩
  · exact ⟨rfl, rfl⟩

/-- A member of a view selects what its collection path selects. -/
theorem leaves_of_virtualPath {path : String} {m m' : Memos} {f : Filter}
    (h : ((c.selection explicit levels resolving).virtualPath path).outcome m = (.ok f, m')) :
    f.memberLeaves.map some = [c.collectionLeaves explicit path] := by
  have hagrees : (c.selection explicit levels resolving).Agrees
      (c.selection explicit c.limits.maxAliasDepth []) := ⟨rfl, rfl⟩
  have hresolving : path ∉ (c.selection explicit c.limits.maxAliasDepth []).resolving := by
    simp [selection]
  obtain ⟨hparts, g, hg, hleaves⟩ := Selection.resolve_bare hagrees hresolving h
  have hpath : c.collectionLeaves explicit path = some g.leaves := by
    rw [collectionLeaves, comparing_collectionPath, hg]
    rfl
  rw [hpath, Filter.memberLeaves, hparts, hleaves]
  rfl

/-! ## Computed views -/

theorem computes_selection (hnamed : c.hierarchy.Named) :
    (c.selection explicit levels resolving).Computes (c.Lists explicit) := by
  intro name view members f m m' hview hmembers hall
  have hnil : members ≠ [] := by
    rintro rfl
    cases hall
  have hmerged : Filter.merged .and members = f := by
    rw [Filter.all?, Filter.combine_eq_merged .and hnil] at hall
    exact Option.some.inj hall
  have heach := map_of_mapM (g := fun g => g.memberLeaves.map some)
    (k := fun path => [c.collectionLeaves explicit path]) leaves_of_virtualPath hmembers
  refine ⟨view, by rw [hnamed hview]; exact hview, ?_⟩
  calc f.memberLeaves.map some
      = (members.map fun g => g.memberLeaves.map some).flatten := by
        rw [← hmerged, Filter.memberLeaves, Filter.parts_merged, List.map_flatMap,
          List.map_flatMap, List.flatMap_def]
        rfl
    _ = view.collections.map (c.collectionLeaves explicit) := by
        rw [heach, ← List.flatMap_def, ← List.map_eq_flatMap]

/-- An expression remembers what its views and its attached filters do. -/
theorem fills_of_attached (hnamed : c.hierarchy.Named)
    (h : ∀ vpath owner expression, Fills (c.Lists explicit)
      (c.attachedWithin explicit levels resolving vpath owner expression)) :
    Fills (c.Lists explicit) (c.compileWithin explicit levels resolving text) := by
  let s := c.selection explicit levels resolving
  have hs : ∀ narrow, Selection.Beside (fun _ => True)
      (fun V d _ => Gives (Fills (c.Lists explicit)) V d) (fun _ => True) (fun _ => True)
      (fun _ => True) narrow s fun _ : Unit => s :=
    fun _ => Selection.beside_gives (fills_closed _) fun _ => h
  exact (judge_compileWithin (v := fun _ => s.viewFilter) hs (fun _ => trivial)
    (fun name => gives_true (Selection.fills_viewFilter (computes_selection hnamed) h name))
    (Reading.quoting_ofString text)).1

/-- What an expression, in whatever context, has its views remembered as. -/
theorem fills_compileWithin (hnamed : c.hierarchy.Named) :
    Fills (c.Lists explicit) (c.compileWithin explicit levels resolving text) := by
  induction levels generalizing resolving text with
  | zero => exact fills_of_attached hnamed fun _ _ _ => (fills_closed _).throw _
  | succ levels ih => exact fills_of_attached hnamed fun _ owner _ => ih.mapError (.nested owner)

/-! ## Calls -/

theorem filter_snd (source : String) (m : Memos) :
    (c.filter text explicit source m).2 = ((c.compile explicit text).outcome m).2 := by
  unfold filter
  split <;> simp_all

/-- One call keeps the memos, and adds those of the views it computes. -/
theorem extends_after (hnamed : c.hierarchy.Named) (m : Memos) (call : Call) :
    m.Extends (c.Lists call.explicit) (c.after m call) := by
  rw [after, filter_snd]
  exact fills_compileWithin hnamed m

theorem find?_run (hnamed : c.hierarchy.Named) {m : Memos} {view : String} {f : Filter}
    (h : m.find? view = some f) (calls : List Call) : (c.run m calls).find? view = some f := by
  induction calls generalizing m with
  | nil => exact h
  | cons call calls ih => exact ih ((extends_after hnamed m call).keeps h)

/-- Whatever calls have been made, what is remembered for a view has been computed by the first call
that got to it. -/
theorem lists_of_run (hnamed : c.hierarchy.Named) {m : Memos} {view : String} {f : Filter}
    {calls : List Call} (hnone : m.find? view = none) (h : (c.run m calls).find? view = some f) :
    c.Lists (c.filledExplicitly view m calls) view f := by
  induction calls generalizing m with
  | nil =>
    rw [run, List.foldl_nil, hnone] at h
    cases h
  | cons call calls ih =>
    rw [filledExplicitly]
    cases hcall : (c.after m call).find? view with
    | some g =>
      have hkept : (c.run m (call :: calls)).find? view = some g := find?_run hnamed hcall calls
      obtain rfl := Option.some.inj (h.symm.trans hkept)
      exact (extends_after hnamed m call).of_added hnone hcall
    | none => exact ih hcall h

/-- A further call that is not explicit makes no view explicit. -/
theorem filledExplicitly_append (view : String) (m : Memos) (calls : List Call) (call : Call)
    (h : call.explicit = false) :
    c.filledExplicitly view m (calls ++ [call]) = c.filledExplicitly view m calls := by
  induction calls generalizing m with
  | nil => simp [filledExplicitly, h]
  | cons first calls ih => rw [List.cons_append, filledExplicitly, filledExplicitly, ih]

theorem outcome_compile_view {name : String}
    (hlength : c.limits.admits (Filter.equals (.single .view) name).text = true) (m : Memos) :
    (c.compile explicit (Filter.equals (.single .view) name).text).outcome m =
      ((c.selection explicit c.limits.maxAliasDepth []).viewFilter name).outcome m := by
  have hreads := Comparison.reads_view name .done
  rw [← TokenStream.ofString_text] at hreads
  rw [outcome_compile_of_reads hlength hreads, comparing, Selection.compile_view]

/-- A call for a view gives what is remembered for the view after it. -/
theorem view_of_filter {name source : String} {m m' : Memos} {f : Filter}
    (h : c.filter (Filter.equals (.single .view) name).text explicit source m = (.filter f, m')) :
    ∃ view inner, c.hierarchy.view name = .ok (some view) ∧ f = .view view.name inner ∧
      m'.find? view.name = some inner := by
  have hcompile := filter_eq_filter.mp h
  obtain ⟨hlength, -⟩ := compileWithin_eq_ok.mp hcompile
  rw [outcome_compile_view hlength] at hcompile
  exact Selection.viewFilter_eq_ok hcompile

/-- Whatever calls have been made before, a view that is not selected explicitly selects, member by
member, what the collection paths of its members select under the flag of the call that computed
it. So hidden collections stay hidden if and only if that call was not explicit, or none of the
collection paths depends on the flag. -/
theorem filter_view_members (c : Compiler) (store : Store) (hstore : c.hierarchy = store.hierarchy)
    (calls : List Call) (name source : String) (f : Filter) (m : Memos)
    (h : c.filter (Filter.equals (.single .view) name).text false source (c.run .empty calls) =
      (.filter f, m)) :
    ∃ view inner, store.view? name = some view ∧ f = .view name inner ∧
      inner.memberLeaves.map some =
        view.collections.map (c.collectionLeaves (c.filledExplicitly name .empty calls)) ∧
      (inner.memberLeaves.map some = view.collections.map (c.collectionLeaves false) ↔
        (c.filledExplicitly name .empty calls = true → ∀ path ∈ view.collections,
          c.collectionLeaves true path = c.collectionLeaves false path)) := by
  have hnamed : c.hierarchy.Named := by
    rw [hstore]
    exact store.named_hierarchy
  obtain ⟨view, inner, hview, rfl, hmemo⟩ := view_of_filter h
  have hname : view.name = name := hnamed hview
  -- the view is remembered after this call as well, which is not explicit
  let call : Call := ⟨(Filter.equals (.single .view) name).text, false, source⟩
  have hrun : c.run .empty (calls ++ [call]) = m := by
    rw [run, List.foldl_append]
    exact congrArg Prod.snd h
  rw [hname, ← hrun] at hmemo
  have hlists := lists_of_run hnamed (Memos.find?_empty name) hmemo
  rw [filledExplicitly_append name .empty calls call rfl] at hlists
  obtain ⟨view', hview', hmembers⟩ := hlists
  obtain rfl : view = view' := Option.some.inj (Except.ok.inj (hview.symm.trans hview'))
  rw [hstore] at hview
  refine ⟨view, inner, Except.ok.inj hview, by rw [hname], hmembers, ?_⟩
  rw [hmembers, List.map_inj_left]
  cases c.filledExplicitly name .empty calls <;> simp

/-! ## A hidden calendar that is selected -/

/-- A calendar that is hidden. -/
def hiddenCalendar : Collection := { Collection.plain "/f/h" .calendar with display := false }

/-- The calendar in a folder that a view shows, beside another one. -/
def officeStore : Store :=
  ⟨[.plain "/f" .folder, .plain "/f/a" .calendar, hiddenCalendar], [], [⟨"v", ["/f"]⟩]⟩

/-- A compiler over the store. -/
def officeCompiler : Compiler := ⟨officeStore.hierarchy, .standard⟩

/-- A call for the view. -/
def officeCall (explicit : Bool) : Call := ⟨"view = \"v\"", explicit, ""⟩

/-- The calendars in the folder. -/
def officeFilter (explicit : Bool) : Filter :=
  if explicit then .or [.inCollection "/f/a", .inCollection "/f/h"] else .inCollection "/f/a"

/-- The view when it has been selected explicitly. -/
def officeView : Filter := .and (some "/f") [officeFilter true]

theorem outcome_resolve_office (explicit narrow : Bool) (m : Memos) :
    ((officeCompiler.selection explicit 16 []).resolve "/f" narrow).outcome m =
      (.ok (if narrow = true then .and (some "/f") [officeFilter explicit]
        else officeFilter explicit), m) := by
  let s := officeCompiler.selection explicit 16 []
  have hchain : s.hierarchy.chain "/f" =
      .ok [⟨.plain "/" .folder, false⟩, ⟨.plain "/f" .folder, true⟩] := by
    have hfolder : officeStore.find? (Text.joinPath "/" "f") = some (.plain "/f" .folder) := by
      decide
    exact Selection.chain_single (by decide) (by decide) rfl (congrArg Except.ok hfolder)
      rfl
  have hchildren : s.hierarchy.children "/f" = .ok [.plain "/f/a" .calendar, hiddenCalendar] := by
    have hbelow : officeStore.below "/f" = [.plain "/f/a" .calendar, hiddenCalendar] := by
      decide
    exact congrArg Except.ok hbelow
  have hfresh : "/f" ∈ officeStore.paths := by decide
  have hcalendars : ∀ d ∈ s.visible [.plain "/f/a" .calendar, hiddenCalendar],
      d.kind = .calendar ∧ d.path ∈ Hierarchy.without officeStore.paths "/f" := by
    cases explicit <;> decide
  have hexpand : (s.expand narrow officeStore.paths (.plain "/f" .folder)).outcome m =
      (.ok (some (officeFilter explicit)), m) := by
    rw [Selection.expand_calendars (c := .plain "/f" .folder) hfresh rfl hchildren hcalendars]
    cases explicit <;> rfl
  have hresolving : "/f" ∉ s.resolving := by simp [s, selection]
  exact Selection.outcome_resolve hresolving hchain
    (Selection.walk_single (by decide) rfl rfl rfl m) hexpand

/-- The first call for the view computes it. -/
theorem outcome_viewFilter_office :
    ((officeCompiler.selection true 16 []).viewFilter "v").outcome .empty =
      (.ok (.view "v" officeView), ⟨[("v", officeView)]⟩) := by
  let s := officeCompiler.selection true 16 []
  have hview : s.hierarchy.view "v" = .ok (some ⟨"v", ["/f"]⟩) := by decide
  have hmember : (s.virtualPath "/f").outcome .empty = (.ok officeView, .empty) :=
    outcome_resolve_office true true .empty
  have hmembers : (["/f"].mapM s.virtualPath).outcome .empty = (.ok [officeView], .empty) := by
    rw [List.mapM_cons, outcome_bind_of_ok hmember]
    rfl
  rw [Selection.viewFilter, hview]
  exact outcome_bind_of_ok hmembers

/-- The later ones find it. -/
theorem outcome_viewFilter_remembered (explicit : Bool) :
    ((officeCompiler.selection explicit 16 []).viewFilter "v").outcome ⟨[("v", officeView)]⟩ =
      (.ok (.view "v" officeView), ⟨[("v", officeView)]⟩) := by
  rfl

theorem text_office : (Filter.equals (.single .view) "v").text = "view = \"v\"" := by
  decide

theorem run_office : officeCompiler.run .empty [officeCall true] = ⟨[("v", officeView)]⟩ := by
  have hcompile : (officeCompiler.compile true (Filter.equals (.single .view) "v").text).outcome
      .empty = (.ok (.view "v" officeView), ⟨[("v", officeView)]⟩) := by
    rw [outcome_compile_view (by decide)]
    exact outcome_viewFilter_office
  rw [text_office] at hcompile
  rw [run, List.foldl_cons, List.foldl_nil, after, filter_snd]
  exact congrArg Prod.snd hcompile

theorem filter_office : officeCompiler.filter (Filter.equals (.single .view) "v").text false ""
    (officeCompiler.run .empty [officeCall true]) =
      (.filter (.view "v" officeView), ⟨[("v", officeView)]⟩) := by
  rw [run_office, filter_eq_filter, outcome_compile_view (by decide)]
  exact outcome_viewFilter_remembered false

/-- The theorem after an explicit call for the view. -/
theorem filter_view_members_office :
    officeCompiler.filter (Filter.equals (.single .view) "v").text false ""
        (officeCompiler.run .empty [officeCall true]) =
      (.filter (.view "v" officeView), ⟨[("v", officeView)]⟩) ∧
    ∃ view inner, officeStore.view? "v" = some view ∧ Filter.view "v" officeView = .view "v" inner ∧
      inner.memberLeaves.map some = view.collections.map (officeCompiler.collectionLeaves
        (officeCompiler.filledExplicitly "v" .empty [officeCall true])) ∧
      (inner.memberLeaves.map some = view.collections.map (officeCompiler.collectionLeaves false) ↔
        (officeCompiler.filledExplicitly "v" .empty [officeCall true] = true →
          ∀ path ∈ view.collections, officeCompiler.collectionLeaves true path =
            officeCompiler.collectionLeaves false path)) :=
  ⟨filter_office,
    filter_view_members officeCompiler officeStore rfl [officeCall true] "v" "" _ _ filter_office⟩

/-- After an explicit call the view selects a hidden calendar, which the collection path of its only
member does not. -/
theorem filter_view_hidden :
    officeCompiler.filter "view = \"v\"" false "" (officeCompiler.run .empty [officeCall true]) =
        (.filter (.view "v" officeView), ⟨[("v", officeView)]⟩) ∧
      officeStore.view? "v" = some ⟨"v", ["/f"]⟩ ∧
      officeView.memberLeaves = [["/f/a", "/f/h"]] ∧
      officeCompiler.collectionLeaves false "/f" = some ["/f/a"] ∧
      officeView.memberLeaves.map some ≠ ["/f"].map (officeCompiler.collectionLeaves false) := by
  have hfilter := filter_office
  rw [text_office] at hfilter
  have hpath : officeCompiler.collectionLeaves false "/f" = some ["/f/a"] := by
    have hresolve : ((officeCompiler.selection false officeCompiler.limits.maxAliasDepth
        []).collectionPath "/f").outcome .empty = (.ok (officeFilter false), .empty) :=
      outcome_resolve_office false false .empty
    rw [collectionLeaves, comparing_collectionPath, hresolve]
    rfl
  have hmembers : officeView.memberLeaves = [["/f/a", "/f/h"]] := by decide
  refine ⟨hfilter, by decide, hmembers, hpath, ?_⟩
  rw [hmembers, List.map_cons, List.map_cons, hpath]
  decide

end Compiler

end CalendarQuery

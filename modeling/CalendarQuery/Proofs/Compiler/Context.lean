import CalendarQuery.Proofs.Compiler.CollectionPath
import CalendarQuery.Proofs.Expression.Judgment

/-!
# The context of an expression

An expression is compiled in a context: the levels of attached filters that are left, and the paths
that are being resolved. A wider context has at least as many levels, and no further paths.

* `Compilation.Below`: what a compilation gives, others give as well.
* `Compiler.below_compileWithin`: what an expression gives in a context, it gives in a wider one.
* `Compiler.compileWithin_monotone`: so two contexts give the same filter, or one of them fails.
* `Selection.collectionPath_congr`: a collection path has no use for attached filters.
* `Compiler.compileWithin_collectionPath_iff`: nevertheless it fails in a context that is resolving
  the path.
* `Compiler.not_contextFree_desk`: a calendar that is restricted to itself.
-/

namespace CalendarQuery

namespace Compilation

variable {α β ι : Type} {V : α → Prop} {W : β → Prop} {c : Compilation α}
  {d : ι → Compilation α}

/-! ## What other compilations give as well -/

/-- What the compilation gives is of the kind `V`, and the others give it as well and leave the same
memos. -/
def Below (V : α → Prop) (c : Compilation α) (d : ι → Compilation α) : Prop :=
  ∀ (i : ι) {m m' : Memos} {a : α}, c.outcome m = (.ok a, m') →
    V a ∧ (d i).outcome m = (.ok a, m')

namespace Below

/-- A failure is below anything. -/
theorem throw (cause : QueryError) : Below V (MonadExcept.throw cause) d := by
  rintro _ _ _ _ ⟨⟩

theorem refl (h : ∀ a, V a) : Below V c fun _ : ι => c := fun _ {_ _ a} hc => ⟨h a, hc⟩

theorem bind {f : α → Compilation β} {g : ι → α → Compilation β} (hc : Below V c d)
    (hf : ∀ a, V a → Below W (f a) fun i => g i a) : Below W (c >>= f) fun i => d i >>= g i := by
  intro i m m' b h
  obtain ⟨a, m₁, h₁, h₂⟩ := bind_eq_ok.mp h
  obtain ⟨ha, hd⟩ := hc i h₁
  obtain ⟨hb, hg⟩ := hf a ha i h₂
  exact ⟨hb, bind_eq_ok.mpr ⟨a, m₁, hd, hg⟩⟩

theorem mapError (f : QueryError → QueryError) (hc : Below V c d) :
    Below V (Compilation.mapError f c) fun i => Compilation.mapError f (d i) := by
  intro i m m' a h
  obtain ⟨ha, hd⟩ := hc i (mapError_eq_ok.mp h)
  exact ⟨ha, mapError_eq_ok.mpr hd⟩

end Below

theorem judgment_below : Judgment (ι := ι) (fun _ => True) Below where
  pure h _ _ _ _ hc := by
    obtain ⟨rfl, rfl⟩ := Compilation.pure_eq_ok.mp hc
    exact ⟨h, rfl⟩
  throw _ := Below.throw _
  bind := Below.bind

end Compilation

namespace Selection

open Compilation

/-! ## Views in wider contexts -/

/-- A view is looked up, or else computed from virtual paths. -/
theorem below_viewFilter {ι : Type} {P : Collection → Prop} {s : Selection} {t : ι → Selection}
    (hs : Beside (fun _ => True) Below (fun _ => True) P (fun _ => True) true s t)
    (hierarchy : ∀ i, (t i).hierarchy = s.hierarchy) (name : String) :
    Below (fun _ => True) (s.viewFilter name) fun i => (t i).viewFilter name := by
  simp only [viewFilter, hierarchy]
  refine (Below.refl fun _ => trivial).bind fun found _ => ?_
  cases found with
  | none => exact Below.throw _
  | some view =>
    refine (Below.refl fun _ => trivial).bind fun memos _ => ?_
    cases memos.find? view.name with
    | some f => exact Below.refl fun _ => trivial
    | none =>
      have hmembers : Below (fun _ => True) (view.collections.mapM s.virtualPath)
          fun i => view.collections.mapM (t i).virtualPath :=
        hs.judgment.mono (hs.judgment.mapM fun _ _ => hs.resolve trivial) fun _ _ => trivial
      exact hmembers.bind fun _ _ => Below.refl fun _ => trivial

end Selection

namespace Compiler

open Compilation

variable {c : Compiler} {explicit : Bool} {levels levels' : Nat}
  {resolving resolving' : List String} {text : String}

/-! ## Wider contexts -/

/-- One level of attached filters, given the levels below it. -/
theorem below_of_attached (hresolving : resolving' ⊆ resolving)
    (h : ∀ vpath owner expression, Below (fun _ => True)
      (c.attachedWithin explicit levels resolving vpath owner expression)
      fun _ : Unit => c.attachedWithin explicit levels' resolving' vpath owner expression) :
    Below (fun _ => True) (c.compileWithin explicit levels resolving text)
      fun _ : Unit => c.compileWithin explicit levels' resolving' text := by
  let s := c.selection explicit levels resolving
  let t := c.selection explicit levels' resolving'
  have hs : ∀ narrow, Selection.Beside (fun _ => True) Below (fun _ => True) (fun _ => True)
      (fun _ => True) narrow s fun _ : Unit => t := fun narrow =>
    Selection.beside_of_hierarchy judgment_below Filter.inherited_true (fun _ => trivial)
      (fun _ => rfl) (fun _ => rfl) (Hierarchy.answers_true _) (fun _ => Below.throw _)
      (fun hnew _ hm => hnew (hresolving hm)) (fun _ _ _ _ _ => h _ _ _) (fun _ _ _ _ => h _ _ _)
  have hview := Selection.below_viewFilter (hs true) fun _ => rfl
  have hjudged := judge_compileWithin hs (fun _ => trivial) hview (Reading.quoting_ofString text)
  have hcompile : t.compile = t.compileBy t.viewFilter := funext t.compile_eq_compileBy
  have hwider : c.compileWithin explicit levels' resolving' text =
      if c.limits.admits text then parseExpression (t.compileBy t.viewFilter) text
      else throw (.tooLong text.utf8ByteSize c.limits.maxExpressionLength) := by
    rw [compileWithin_eq, ← hcompile]
  simp only [hwider]
  exact hjudged

/-- What an expression gives in a context, it gives in a wider one; the induction is on the
levels. -/
theorem below_compileWithin (hlevels : levels ≤ levels') (hresolving : resolving' ⊆ resolving) :
    Below (fun _ => True) (c.compileWithin explicit levels resolving text)
      fun _ : Unit => c.compileWithin explicit levels' resolving' text := by
  induction levels generalizing levels' resolving resolving' text with
  | zero => exact below_of_attached hresolving fun _ _ _ => Below.throw _
  | succ levels ih =>
    obtain ⟨levels', rfl⟩ := Nat.exists_eq_add_one.mpr (Nat.lt_of_lt_of_le levels.succ_pos hlevels)
    refine below_of_attached hresolving fun vpath owner expression => ?_
    exact (ih (Nat.le_of_succ_le_succ hlevels) (List.cons_subset_cons vpath hresolving)).mapError _

/-- What an expression gives at some depth while some paths are being resolved, it gives as well at
any depth that is no greater, while only such paths are being resolved; and the memos it leaves are
the same. So whatever the context, it gives that or fails. -/
theorem compileWithin_monotone (c : Compiler) (explicit : Bool) (text : String) (depth : Nat)
    (resolving : List String) (m m' : Memos) (f : Filter)
    (h : (c.compileWithin explicit (c.limits.maxAliasDepth - depth) resolving text).outcome m =
      (.ok f, m')) :
    (∀ depth' ≤ depth, ∀ resolving' ⊆ resolving,
      (c.compileWithin explicit (c.limits.maxAliasDepth - depth') resolving' text).outcome m =
        (.ok f, m')) ∧
    ∀ depth' resolving' r m'',
      (c.compileWithin explicit (c.limits.maxAliasDepth - depth') resolving' text).outcome m =
        (r, m'') → r = .ok f ∧ m'' = m' ∨ ∃ cause, r = .error cause := by
  refine ⟨fun depth' hdepth resolving' hresolving => ?_, fun depth' resolving' r m'' h' => ?_⟩
  · exact (below_compileWithin (Nat.sub_le_sub_left hdepth _) hresolving () h).2
  · -- both contexts are compared with the widest one
    have hwidest : ∀ {depth resolving g k}, (c.compileWithin explicit
        (c.limits.maxAliasDepth - depth) resolving text).outcome m = (.ok g, k) →
        (c.compile explicit text).outcome m = (.ok g, k) := fun hg =>
      (below_compileWithin (Nat.sub_le _ _) (List.nil_subset _) () hg).2
    cases r with
    | error cause => exact .inr ⟨cause, rfl⟩
    | ok g =>
      obtain ⟨hfilter, hmemos⟩ := Prod.mk.inj ((hwidest h').symm.trans (hwidest h))
      exact .inl ⟨hfilter, hmemos⟩

end Compiler

namespace Selection

open Compilation

/-! ## Collection paths -/

variable {s t : Selection}

theorem walk_false_congr (vpath : String) (seen : List String) (steps : List ChainStep) :
    s.walk vpath false seen steps = t.walk vpath false seen steps := by
  induction steps generalizing seen with
  | nil => rfl
  | cons step steps ih => simp only [walk, own_false, ih]

theorem expandEach_false_congr {fresh : List String} {cs : List Collection}
    (h : ∀ c, s.expand false fresh c = t.expand false fresh c) :
    s.expandEach false fresh cs = t.expandEach false fresh cs := by
  induction cs with
  | nil => rw [expandEach, expandEach]
  | cons c cs ih => rw [expandEach_cons, expandEach_cons, h, ih]

/-- An expansion without attached filters; the induction is on the paths that may be entered. -/
theorem expand_false_congr (h : s.Agrees t) (fresh : List String) (c : Collection) :
    s.expand false fresh c = t.expand false fresh c := by
  induction hn : fresh.length using Nat.strongRecOn generalizing fresh c with
  | ind n ih =>
    subst hn
    by_cases hm : c.path ∈ fresh
    · have ih' := fun d => ih _ (Hierarchy.length_without_lt hm) _ d rfl
      cases hk : c.kind with
      | calendar => rw [expand_calendar hm hk, expand_calendar hm hk]
      | folder =>
        have hvisible : ∀ children, t.visible children = s.visible children := fun children => by
          rw [visible, visible, h.2]
        simp only [expand_folder hm hk, h.1, hvisible, expandEach_false_congr ih']
      | link => simp only [expand_link hm hk, own_false, h.1, ih']
    · rw [expand_cycle hm, expand_cycle hm]

/-- A collection path that is not being resolved has no use for attached filters. -/
theorem collectionPath_congr (h : s.Agrees t) {path : String} (hs : path ∉ s.resolving)
    (ht : path ∉ t.resolving) : s.collectionPath path = t.collectionPath path := by
  have hwalk := fun steps => walk_false_congr (s := s) (t := t) path [] steps
  simp only [collectionPath, resolve, if_neg hs, if_neg ht, hwalk, h.1, expand_false_congr h]

end Selection

namespace Compiler

open Compilation

variable {c : Compiler} {explicit : Bool} {levels : Nat} {resolving : List String}
  {path text : String}

theorem outcome_compileWithin_of_asks (hlength : c.limits.admits text = true)
    (h : Asks text path) (m : Memos) :
    (c.compileWithin explicit levels resolving text).outcome m =
      ((c.selection explicit levels resolving).collectionPath path).outcome m := by
  rw [compileWithin_of_admits hlength, parseExpression_of_reads h,
    Selection.compile_collectionPath]

/-- In a context that is not resolving the path, a collection path is what it is in none. -/
theorem collectionPath_of_not_mem (h : path ∉ resolving) :
    (c.selection explicit levels resolving).collectionPath path =
      (c.selection explicit c.limits.maxAliasDepth []).collectionPath path := by
  have hagrees : (c.selection explicit levels resolving).Agrees
      (c.selection explicit c.limits.maxAliasDepth []) := ⟨rfl, rfl⟩
  exact Selection.collectionPath_congr hagrees h List.not_mem_nil

theorem mapM_collectionPath_of_not_mem {paths : List String}
    (h : ∀ path ∈ paths, path ∉ resolving) :
    paths.mapM (c.selection explicit levels resolving).collectionPath =
      paths.mapM (c.selection explicit c.limits.maxAliasDepth []).collectionPath := by
  induction paths with
  | nil => rfl
  | cons path paths ih =>
    obtain ⟨hpath, hpaths⟩ := List.forall_mem_cons.mp h
    rw [List.mapM_cons, List.mapM_cons, collectionPath_of_not_mem hpath, ih hpaths]

theorem outcome_compileWithin_of_mem (hlength : c.limits.admits text = true)
    (h : Asks text path) (hm : path ∈ resolving) (m : Memos) :
    (c.compileWithin explicit levels resolving text).outcome m =
      (.error (.aliasCycle path), m) := by
  have hresolving : path ∈ (c.selection explicit levels resolving).resolving := hm
  rw [outcome_compileWithin_of_asks hlength h, Selection.collectionPath,
    Selection.resolve_of_resolving hresolving]
  rfl

/-- Among the paths that are not being resolved, collection paths select the same in every context,
wherever they stand in an expression. A collection path that is being resolved is reported as a
cycle although nothing is compiled for it, also in the filter of the very collection that it names;
so it comes to the same in the context as in none only if it is too long or leads to that cycle
anyway. -/
theorem compileWithin_collectionPath_iff (c : Compiler) (explicit : Bool) (levels : Nat)
    (resolving : List String) :
    (∀ paths : List String, (∀ path ∈ paths, path ∉ resolving) →
      (c.selection explicit levels resolving).compile (.collectionPaths paths) =
        c.comparing explicit (.collectionPaths paths)) ∧
    (∀ (path text : String) (m : Memos), Asks text path →
      ((c.compileWithin explicit levels resolving text).outcome m =
          (c.compile explicit text).outcome m ↔
        path ∈ resolving → c.limits.admits text = true →
          (c.compile explicit text).outcome m = (.error (.aliasCycle path), m))) ∧
    ∀ (path text owner : String) (m : Memos), Asks text path → c.limits.admits text = true →
      (c.attachedWithin explicit (levels + 1) resolving path owner text).outcome m =
        (.error (.nested owner (.aliasCycle path)), m) := by
  refine ⟨fun paths h => ?_, fun path text m hasks => ?_, fun path text owner m hasks hlength => ?_⟩
  · rw [comparing, Selection.compile, Selection.compile, mapM_collectionPath_of_not_mem h]
  · by_cases hlength : c.limits.admits text = true
    · by_cases hm : path ∈ resolving
      · rw [outcome_compileWithin_of_mem hlength hasks hm]
        simp only [hm, hlength, forall_const]
        exact eq_comm
      · refine iff_of_true ?_ fun h => absurd h hm
        rw [compile, outcome_compileWithin_of_asks hlength hasks,
          outcome_compileWithin_of_asks hlength hasks, collectionPath_of_not_mem hm]
    · refine iff_of_true ?_ fun _ h => absurd h hlength
      rw [compile, compileWithin_eq, compileWithin_eq, if_neg hlength, if_neg hlength]
  · have hinner : (c.compileWithin explicit levels (path :: resolving) text).outcome m =
        (.error (.aliasCycle path), m) :=
      outcome_compileWithin_of_mem hlength hasks List.mem_cons_self m
    rw [attachedWithin, outcome_mapError, hinner]
    rfl

/-! ## A calendar that is restricted to itself -/

/-- A calendar with an attached filter that asks for the calendar at `/c`. -/
def deskCalendar (path : String) : Collection :=
  { Collection.plain path .calendar with filter := some "colpath = \"/c\"" }

/-- The calendar at `/c`, which is restricted to itself, and another one that is restricted to
it. -/
def deskStore : Store := ⟨[deskCalendar "/c", deskCalendar "/d"], [], []⟩

/-- A compiler over the store. -/
def deskCompiler : Compiler := ⟨deskStore.hierarchy, .standard⟩

theorem asks_desk : Asks "colpath = \"/c\"" "/c" := by
  have htext : (Filter.inCollection "/c").text = "colpath = \"/c\"" := by decide
  exact htext ▸ asks_text "/c"

theorem chain_desk {path : String} (h : path = "/c" ∨ path = "/d") :
    deskStore.hierarchy.chain path =
      .ok [⟨.plain "/" .folder, false⟩, ⟨deskCalendar path, true⟩] := by
  have hfind : deskStore.find? "/c" = some (deskCalendar "/c") ∧
      deskStore.find? "/d" = some (deskCalendar "/d") := by decide
  rcases h with rfl | rfl
  · have hjoined : deskStore.find? (Text.joinPath "/" "c") = some (deskCalendar "/c") := hfind.1
    exact Selection.chain_single (by decide) (by decide) rfl (congrArg Except.ok hjoined) rfl
  · have hjoined : deskStore.find? (Text.joinPath "/" "d") = some (deskCalendar "/d") := hfind.2
    exact Selection.chain_single (by decide) (by decide) rfl (congrArg Except.ok hjoined) rfl

/-- Either calendar, given its attached filter if that counts. -/
theorem outcome_resolve_desk {s : Selection} {narrow : Bool} {path : String}
    {r : Except QueryError (Option Filter)} {m : Memos} (hs : s.hierarchy = deskStore.hierarchy)
    (h : path = "/c" ∨ path = "/d") (hresolving : path ∉ s.resolving)
    (hown : (s.own narrow path (deskCalendar path)).outcome m = (r, m)) :
    (s.resolve path narrow).outcome m = (r.map fun own => if narrow = true then
      .and (some path) (own.toList ++ [.inCollection path]) else .inCollection path, m) := by
  have hne : path ≠ "/" := by rcases h with rfl | rfl <;> decide
  have hfresh : path ∈ s.hierarchy.paths := by
    have hm : "/c" ∈ deskStore.paths ∧ "/d" ∈ deskStore.paths := by decide
    rw [hs]
    rcases h with rfl | rfl
    · exact hm.1
    · exact hm.2
  have hchain : s.hierarchy.chain path =
      .ok [⟨.plain "/" .folder, false⟩, ⟨deskCalendar path, true⟩] := hs ▸ chain_desk h
  have hwalk : (s.walk path narrow [] [⟨.plain "/" .folder, false⟩,
      ⟨deskCalendar path, true⟩]).outcome m =
        (r.map fun own => (own.toList, some (deskCalendar path)), m) := by
    have hroot : s.own narrow path (.plain "/" .folder) = pure none := Selection.own_none rfl path
    have hpaths : (Collection.plain "/" .folder).path = "/" ∧ (deskCalendar path).path = path :=
      ⟨rfl, rfl⟩
    have hterminal : (deskCalendar path).isAlias = false := rfl
    simp [Selection.walk, hroot, hpaths, hterminal, outcome_map, hown, hne]
  cases r with
  | error cause =>
    rw [Selection.resolve, if_neg hresolving,
      outcome_bind_of_ok (Selection.chain_eq_ok.mpr ⟨hchain, rfl⟩)]
    exact outcome_bind_of_error hwalk
  | ok own =>
    have hexpand : (s.expand narrow s.hierarchy.paths (deskCalendar path)).outcome m =
        (.ok (some (.inCollection path)), m) := by
      rw [Selection.expand_calendar (c := deskCalendar path) hfresh rfl]
      rfl
    exact Selection.outcome_resolve hresolving hchain hwalk hexpand

/-- The calendar at `/c` as a collection path, where that is not being resolved. -/
theorem outcome_collectionPath_desk {explicit : Bool} {levels : Nat} {resolving : List String}
    (hresolving : "/c" ∉ resolving) (m : Memos) :
    (deskCompiler.compileWithin explicit levels resolving "colpath = \"/c\"").outcome m =
      (.ok (.inCollection "/c"), m) := by
  have hown : ((deskCompiler.selection explicit levels resolving).own false "/c"
      (deskCalendar "/c")).outcome m = (.ok none, m) := by
    rw [Selection.own_false]
    rfl
  rw [outcome_compileWithin_of_asks (by decide) asks_desk]
  exact outcome_resolve_desk rfl (.inl rfl) hresolving hown

/-- Either calendar as a virtual path, given its attached filter. -/
theorem outcome_virtualPath_desk {explicit : Bool} {levels : Nat} {resolving : List String}
    {path : String} {r : Except QueryError Filter} {m : Memos} (h : path = "/c" ∨ path = "/d")
    (hresolving : path ∉ resolving)
    (hattached : (deskCompiler.attachedWithin explicit levels resolving path path
      "colpath = \"/c\"").outcome m = (r, m)) :
    (deskCompiler.compileWithin explicit levels resolving
        (Filter.equals (.single .vpath) path).text).outcome m =
      (r.map fun f => .and (some path) [f, .inCollection path], m) := by
  have hreads := Comparison.reads_virtualPath path .done
  rw [← TokenStream.ofString_text] at hreads
  have hlength : deskCompiler.limits.admits (Filter.equals (.single .vpath) path).text = true := by
    rcases h with rfl | rfl <;> decide
  have hown : ((deskCompiler.selection explicit levels resolving).own true path
      (deskCalendar path)).outcome m = (r.map some, m) := by
    rw [Selection.own_some (c := deskCalendar path) rfl, outcome_map]
    exact congrArg (fun o => (o.1.map some, o.2)) hattached
  rw [compileWithin_of_admits hlength, parseExpression_of_reads hreads,
    Selection.compile_virtualPath]
  refine (outcome_resolve_desk rfl h hresolving hown).trans ?_
  cases r <;> rfl

theorem text_desk : (Filter.equals (.single .vpath) "/c").text = "vpath = \"/c\"" ∧
    (Filter.equals (.single .vpath) "/d").text = "vpath = \"/d\"" := by
  decide

/-- The other calendar, selected at the last level while a further path is being resolved. -/
theorem compileWithin_monotone_desk :
    (deskCompiler.compileWithin false (deskCompiler.limits.maxAliasDepth - 15) ["/x"]
        "vpath = \"/d\"").outcome .empty =
      (.ok (.and (some "/d") [.inCollection "/c", .inCollection "/d"]), .empty) ∧
    ∀ depth ≤ 15, ∀ resolving ⊆ ["/x"],
      (deskCompiler.compileWithin false (deskCompiler.limits.maxAliasDepth - depth) resolving
        "vpath = \"/d\"").outcome .empty =
      (.ok (.and (some "/d") [.inCollection "/c", .inCollection "/d"]), .empty) := by
  have hattached : (deskCompiler.attachedWithin false 1 ["/x"] "/d" "/d"
      "colpath = \"/c\"").outcome .empty = (.ok (.inCollection "/c"), .empty) :=
    mapError_eq_ok.mpr (outcome_collectionPath_desk (by decide) .empty)
  have hfilter := outcome_virtualPath_desk (.inr rfl) (by decide) hattached
  rw [text_desk.2] at hfilter
  exact ⟨hfilter, (compileWithin_monotone deskCompiler false _ 15 _ _ _ _ hfilter).1⟩

/-- The calendar that is restricted to itself cannot be selected by its virtual path, because its
filter means something else in there than it means in no context. -/
theorem not_contextFree_desk :
    deskCompiler.filter "colpath = \"/c\"" false "" .empty =
      (.filter (.inCollection "/c"), .empty) ∧
    deskCompiler.filter "vpath = \"/c\"" false "" .empty =
      (.failed "" (.nested "/c" (.aliasCycle "/c")), .empty) ∧
    ¬∀ levels resolving,
      (deskCompiler.compileWithin false levels resolving "colpath = \"/c\"").outcome .empty =
        (deskCompiler.compile false "colpath = \"/c\"").outcome .empty := by
  have htop : (deskCompiler.compile false "colpath = \"/c\"").outcome .empty =
      (.ok (.inCollection "/c"), .empty) := outcome_collectionPath_desk (by simp) .empty
  have hwithin : ∀ levels, (deskCompiler.compileWithin false levels ["/c"]
      "colpath = \"/c\"").outcome .empty = (.error (.aliasCycle "/c"), .empty) := fun _ =>
    outcome_compileWithin_of_mem (by decide) asks_desk List.mem_cons_self .empty
  have hattached : (deskCompiler.attachedWithin false 16 [] "/c" "/c"
      "colpath = \"/c\"").outcome .empty = (.error (.nested "/c" (.aliasCycle "/c")), .empty) := by
    rw [attachedWithin, outcome_mapError, hwithin]
    rfl
  have hfails := outcome_virtualPath_desk (.inl rfl) (by simp) hattached
  rw [text_desk.1] at hfails
  refine ⟨filter_eq_filter.mpr htop, filter_of_error hfails, fun h => ?_⟩
  have hsame := (hwithin 16).symm.trans ((h 16 ["/c"]).trans htop)
  cases hsame

end Compiler

end CalendarQuery

import CalendarQuery.Proofs.Calls
import CalendarQuery.Proofs.Expression.Judgment

/-!
# When the levels of attached filters run out

A filter attached along the chain of a virtual path is compiled while that path is being resolved,
and so the path cannot come again further down. A filter attached to an alias that is expanded is
compiled on behalf of the alias instead, and nothing keeps the path that led to the alias from
coming again. So the levels run out for good only through such aliases.

* `Compiler.Descends`: the layers of attached filters, each reached in one of the two ways.
* `Compiler.keeps_layered`: where the levels run out, all of them are layers.
* `Store.Backstop`: from some limit on, the levels never run out.
* `Store.backstop_iff`: they never do if and only if no alias comes more than some number of times
  among the layers.
* `Store.not_backstop_cycleStore`: a store in which they do whatever the limit.
-/

namespace CalendarQuery

namespace QueryError

/-- The collections whose attached filters a cause goes through, the outermost first. -/
def owners : QueryError → List String
  | .nested owner inner => owner :: owners inner
  | _ => []

/-- The cause inside all attached filters. -/
def root : QueryError → QueryError
  | .nested _ inner => root inner
  | cause => cause

end QueryError

namespace TokenStream

/-- The quoted texts of a stream. -/
def texts (s : TokenStream) : List String :=
  s.tokens.filterMap fun t => match t with
    | .quoted text => some text
    | _ => none

theorem mem_texts {s : TokenStream} {text : String} :
    text ∈ s.texts ↔ .quoted text ∈ s.tokens := by
  unfold texts
  rw [List.mem_filterMap]
  constructor
  · rintro ⟨t, ht, h⟩
    cases t <;> simp_all
  · exact fun h => ⟨_, h, rfl⟩

end TokenStream

namespace Store

/-- The paths that attached filters and views can ask for. -/
def askedPaths (s : Store) : List String :=
  (s.collections.filterMap Collection.filter).flatMap (fun e => (TokenStream.ofString e).texts) ++
    s.views.flatMap View.collections

/-- The paths of the aliases with an attached filter. -/
def narrowingAliases (s : Store) : List String :=
  (s.collections.filter fun c => c.isAlias && c.filter.isSome).map Collection.path

end Store

namespace Compiler

open Compilation

/-! ## Layers -/

/-- The owners of attached filters, each compiled inside the one before: found along the chain of a
path that is asked for and not being resolved, or at an alias that is expanded. Further down the
asked paths are those of `paths`. -/
def Descends (paths aliases : List String) :
    (asked : String → Prop) → (resolving owners : List String) → Prop
  | _, _, [] => True
  | asked, resolving, owner :: owners =>
    (∃ vpath, asked vpath ∧ vpath ∉ resolving ∧
        Descends paths aliases (· ∈ paths) (vpath :: resolving) owners) ∨
      (owner ∈ aliases ∧ Descends paths aliases (· ∈ paths) (owner :: resolving) owners)

/-- The paths that are not being resolved. -/
def unresolved (paths resolving : List String) : List String :=
  paths.filter fun path => !resolving.contains path

theorem length_unresolved_cons_le (paths resolving : List String) (path : String) :
    (unresolved paths (path :: resolving)).length ≤ (unresolved paths resolving).length := by
  unfold unresolved
  rw [← List.countP_eq_length_filter, ← List.countP_eq_length_filter]
  exact List.countP_mono_left fun p _ hp => by simp_all

/-- One path fewer can be resolved once it is being resolved. -/
theorem length_unresolved_cons_lt {paths resolving : List String} {path : String}
    (hm : path ∈ paths) (hnew : path ∉ resolving) :
    (unresolved paths (path :: resolving)).length < (unresolved paths resolving).length := by
  have hwithout : unresolved paths (path :: resolving) =
      Hierarchy.without (unresolved paths resolving) path := by
    unfold unresolved Hierarchy.without
    rw [List.filter_filter]
    refine List.filter_congr fun p _ => ?_
    rw [List.contains_cons, Bool.not_or, bne]
  rw [hwithout]
  exact Hierarchy.length_without_lt (List.mem_filter.mpr ⟨hm, by simpa using hnew⟩)

/-- Layers that no alias accounts for use up the paths that can be asked for. -/
theorem Descends.length_le {paths aliases resolving owners : List String}
    (h : Descends paths aliases (· ∈ paths) resolving owners) :
    owners.length ≤ (unresolved paths resolving).length + owners.countP (aliases.contains ·) := by
  induction owners generalizing resolving with
  | nil => simp
  | cons owner owners ih =>
    rw [List.length_cons, List.countP_cons]
    obtain ⟨vpath, hasked, hnew, h⟩ | ⟨hm, h⟩ := h
    · have := ih h
      have := length_unresolved_cons_lt hasked hnew
      omega
    · have := ih h
      have := length_unresolved_cons_le paths resolving owner
      rw [if_pos (by simpa using hm)]
      omega

theorem Descends.length_le_succ {paths aliases owners : List String} {asked : String → Prop}
    (h : Descends paths aliases asked [] owners) :
    owners.length ≤ paths.length + 1 + owners.countP (aliases.contains ·) := by
  have hle : ∀ resolving, (unresolved paths resolving).length ≤ paths.length :=
    fun resolving => List.length_filter_le _ _
  cases owners with
  | nil => simp
  | cons owner owners =>
    rw [List.length_cons, List.countP_cons]
    obtain ⟨vpath, -, -, h⟩ | ⟨-, h⟩ := h
    · have := h.length_le
      have := hle [vpath]
      omega
    · have := h.length_le
      have := hle [owner]
      omega

theorem countP_or_le {α : Type} (p q : α → Bool) (as : List α) :
    as.countP (fun a => p a || q a) ≤ as.countP p + as.countP q := by
  induction as with
  | nil => simp
  | cons a as ih =>
    simp only [List.countP_cons]
    cases p a <;> cases q a <;> simp <;> omega

/-- Layers at aliases are few if none of the aliases comes often. -/
theorem countP_contains_le {aliases owners : List String} {repeats : Nat}
    (h : ∀ a ∈ aliases, owners.count a ≤ repeats) :
    owners.countP (aliases.contains ·) ≤ aliases.length * repeats := by
  induction aliases with
  | nil => simp
  | cons a aliases ih =>
    have hrest := ih fun b hb => h b (List.mem_cons_of_mem a hb)
    have hfirst := h a List.mem_cons_self
    have hsplit : owners.countP ((a :: aliases).contains ·) ≤
        owners.count a + owners.countP (aliases.contains ·) := by
      simp only [List.contains_cons]
      exact countP_or_le (· == a) (aliases.contains ·) owners
    rw [List.length_cons, Nat.succ_mul]
    omega

/-! ## What runs out -/

/-- If the levels have run out, they are all layers of the cause. -/
def Layered (store : Store) (limits : Limits) (levels : Nat) (asked : String → Prop)
    (resolving : List String) (cause : QueryError) : Prop :=
  ∀ limit, cause.root = .aliasDepthExceeded limit → limit = limits.maxAliasDepth ∧
    cause.owners.length = levels ∧
    Descends store.askedPaths store.narrowingAliases asked resolving cause.owners

variable {store : Store} {limits : Limits} {levels : Nat} {asked : String → Prop}
  {resolving : List String}

theorem layered_of_quoting {cause : QueryError} (h : (Reading.quoting asked).cause cause) :
    Layered store limits levels asked resolving cause := by
  intro limit hroot
  cases cause with
  | aliasDepthExceeded limit => exact h.elim
  | nested owner inner => exact h.elim
  | _ => cases hroot

theorem layered_aliasDepthExceeded :
    Layered store limits 0 asked resolving (.aliasDepthExceeded limits.maxAliasDepth) := by
  intro limit hroot
  cases hroot
  exact ⟨rfl, rfl, trivial⟩

/-- A filter attached along the chain of a path. -/
theorem Layered.chained {cause : QueryError} {vpath owner : String}
    (h : Layered store limits levels (· ∈ store.askedPaths) (vpath :: resolving) cause)
    (hasked : asked vpath) (hnew : vpath ∉ resolving) :
    Layered store limits (levels + 1) asked resolving (.nested owner cause) := by
  intro limit hroot
  obtain ⟨hlimit, hlength, hdescends⟩ := h limit hroot
  exact ⟨hlimit, congrArg (· + 1) hlength, .inl ⟨vpath, hasked, hnew, hdescends⟩⟩

/-- A filter attached to an alias. -/
theorem Layered.linked {cause : QueryError} {owner : String}
    (h : Layered store limits levels (· ∈ store.askedPaths) (owner :: resolving) cause)
    (hm : owner ∈ store.narrowingAliases) :
    Layered store limits (levels + 1) asked resolving (.nested owner cause) := by
  intro limit hroot
  obtain ⟨hlimit, hlength, hdescends⟩ := h limit hroot
  exact ⟨hlimit, congrArg (· + 1) hlength, .inr ⟨hm, hdescends⟩⟩

/-- What is known of a collection of the store: its attached filter asks for paths that are known,
and if it is an alias with such a filter it is one of those. -/
def Known (store : Store) (c : Collection) : Prop :=
  ∀ expression, c.filter = some expression →
    (Reading.quoting (· ∈ store.askedPaths)).lexer (Lexer.ofString expression) ∧
      (c.kind = .link → c.path ∈ store.narrowingAliases)

theorem known_of_mem {c : Collection} (hc : c ∈ store.collections) : Known store c := by
  intro expression hfilter
  refine ⟨⟨_, TokenStream.gives_ofString expression, fun text htext => ?_⟩, fun hk => ?_⟩
  · refine List.mem_append_left _ (List.mem_flatMap.mpr ⟨expression, ?_, ?_⟩)
    · exact List.mem_filterMap.mpr ⟨c, hc, hfilter⟩
    · exact TokenStream.mem_texts.mpr htext
  · refine List.mem_map.mpr ⟨c, List.mem_filter.mpr ⟨hc, ?_⟩, rfl⟩
    simp [Collection.isAlias, hk, hfilter]

theorem answers_known (store : Store) : store.hierarchy.Answers (Known store) :=
  Store.answers (fun _ hc => known_of_mem hc) nofun fun _ hc => hc

theorem asked_of_view {name : String} {view : View}
    (h : store.hierarchy.view name = .ok (some view)) :
    ∀ path ∈ view.collections, path ∈ store.askedPaths := by
  intro path hpath
  have hview : store.view? name = some view := Except.ok.inj h
  exact List.mem_append_right _
    (List.mem_flatMap.mpr ⟨view, List.mem_of_find?_eq_some hview, hpath⟩)

/-- Wherever the levels run out while an expression is compiled, they are all layers. -/
theorem keeps_layered {explicit : Bool} {text : String}
    (hview : ∀ path ∈ store.askedPaths, asked path)
    (htext : (Reading.quoting asked).lexer (Lexer.ofString text)) :
    Keeps (fun _ => True) (Layered store limits levels asked resolving) (fun _ => True)
      (compileWithin ⟨store.hierarchy, limits⟩ explicit levels resolving text) := by
  induction levels generalizing asked resolving text with
  | zero =>
    exact keeps_of_attached Filter.inherited_true layered_of_quoting (answers_known store)
      (fun _ _ _ _ => Keeps.throw layered_aliasDepthExceeded)
      (fun _ _ _ => Keeps.throw layered_aliasDepthExceeded)
      (fun h path hpath => hview path (asked_of_view h path hpath)) htext
  | succ levels ih =>
    refine keeps_of_attached Filter.inherited_true layered_of_quoting (answers_known store)
      (fun hnew hasked hc hfilter => ?_) (fun hc hk hfilter => ?_)
      (fun h path hpath => hview path (asked_of_view h path hpath)) htext
    · exact (ih (fun _ h => h) (hc _ hfilter).1).mapError fun _ h => h.chained hasked hnew
    · exact (ih (fun _ h => h) (hc _ hfilter).1).mapError fun _ h => h.linked ((hc _ hfilter).2 hk)

end Compiler

/-! ## The limit as a backstop -/

namespace Store

open Compilation Compiler

/-- After some calls, a call fails with the cause because the levels have run out. -/
def RunsOut (store : Store) (limits : Limits) (cause : QueryError) : Prop :=
  ∃ (calls : List Call) (call : Call) (m : Memos) (limit : Nat),
    filter ⟨store.hierarchy, limits⟩ call.text call.explicit call.source
      (run ⟨store.hierarchy, limits⟩ .empty calls) = (.failed call.source cause, m) ∧
    cause.root = .aliasDepthExceeded limit

/-- From some limit on, the levels never run out. -/
def Backstop (store : Store) : Prop :=
  ∃ bound, ∀ limits : Limits, bound ≤ limits.maxAliasDepth → ∀ cause, ¬store.RunsOut limits cause

theorem RunsOut.layers {store : Store} {limits : Limits} {cause : QueryError}
    (h : store.RunsOut limits cause) : cause.root = .aliasDepthExceeded limits.maxAliasDepth ∧
      cause.owners.length = limits.maxAliasDepth ∧
      Descends store.askedPaths store.narrowingAliases (fun _ => True) [] cause.owners := by
  obtain ⟨calls, call, m, limit, hcall, hroot⟩ := h
  have hkeeps : Keeps (fun _ => True) (Layered store limits limits.maxAliasDepth (fun _ => True) [])
      (fun _ => True) (compileWithin ⟨store.hierarchy, limits⟩ call.explicit limits.maxAliasDepth []
        call.text) :=
    keeps_layered (fun _ _ => trivial) (Reading.quoting_ofString call.text)
  have houtcome := hkeeps (run ⟨store.hierarchy, limits⟩ .empty calls) (by intro _ _ _; trivial)
  have herror := (filter_eq_failed.mp hcall).2
  obtain ⟨rfl, hlength, hdescends⟩ := houtcome.2.2 cause (congrArg Prod.fst herror) limit hroot
  exact ⟨hroot, hlength, hdescends⟩

/-- A path that is being resolved does not come again. Where the levels run out, they are all layers,
each reached along the chain of a path that was not being resolved or at an alias that was expanded;
so there are few layers but those at aliases. From some limit on the levels never run out if and
only if there is a bound for the layers at any one alias. -/
theorem backstop_iff (store : Store) :
    (∀ (limits : Limits) (explicit : Bool) (levels : Nat) (resolving : List String)
      (vpath : String) (m : Memos), vpath ∈ resolving →
      ((selection ⟨store.hierarchy, limits⟩ explicit levels resolving).virtualPath vpath).outcome m =
        (.error (.aliasCycle vpath), m)) ∧
    (∀ (limits : Limits) (cause : QueryError), store.RunsOut limits cause →
      cause.root = .aliasDepthExceeded limits.maxAliasDepth ∧
      cause.owners.length = limits.maxAliasDepth ∧
      Descends store.askedPaths store.narrowingAliases (fun _ => True) [] cause.owners ∧
      limits.maxAliasDepth ≤ store.askedPaths.length + 1 +
        cause.owners.countP (store.narrowingAliases.contains ·)) ∧
    (store.Backstop ↔ ∃ repeats, ∀ (limits : Limits) (cause : QueryError),
      store.RunsOut limits cause → ∀ a ∈ store.narrowingAliases, cause.owners.count a ≤ repeats) := by
  refine ⟨fun limits explicit levels resolving vpath m h => ?_, fun limits cause h => ?_, ?_⟩
  · let s := selection ⟨store.hierarchy, limits⟩ explicit levels resolving
    have hresolving : vpath ∈ s.resolving := h
    rw [Selection.virtualPath, Selection.resolve_of_resolving hresolving]
    rfl
  · obtain ⟨hroot, hlength, hdescends⟩ := h.layers
    exact ⟨hroot, hlength, hdescends, hlength ▸ hdescends.length_le_succ⟩
  · constructor
    · rintro ⟨bound, hbound⟩
      refine ⟨bound, fun limits cause h a _ => ?_⟩
      have hlt : limits.maxAliasDepth < bound :=
        Nat.lt_of_not_le fun hle => hbound limits hle cause h
      have hcount := cause.owners.count_le_length (a := a)
      rw [h.layers.2.1] at hcount
      omega
    · rintro ⟨repeats, hrepeats⟩
      refine ⟨store.askedPaths.length + 1 + store.narrowingAliases.length * repeats + 1,
        fun limits hle cause h => ?_⟩
      have hlength := h.layers.2.2.length_le_succ
      rw [h.layers.2.1] at hlength
      have hcount := countP_contains_le (hrepeats limits cause h)
      omega

/-! ## An alias that comes again and again -/

/-- An alias in a folder, with an attached filter that asks for the folder. -/
def cycleAlias : Collection :=
  { Collection.plain "/f/a" .link with filter := some "vpath = \"/f\"", target := some "/c" }

/-- The folder, the alias and its target. -/
def cycleStore : Store := ⟨[.plain "/c" .calendar, .plain "/f" .folder, cycleAlias], [], []⟩

/-- As many layers at the alias as there are levels, and then no more levels. -/
def cycleCause (limit : Nat) : (levels : Nat) → QueryError
  | 0 => .aliasDepthExceeded limit
  | levels + 1 => .nested "/f/a" (cycleCause limit levels)

theorem root_cycleCause (limit levels : Nat) :
    (cycleCause limit levels).root = .aliasDepthExceeded limit := by
  induction levels with
  | zero => rfl
  | succ levels ih => exact ih

/-- The folder is as far as the alias, whose attached filter does not compile. -/
theorem outcome_virtualPath_cycle {s : Selection} {cause : QueryError} {m : Memos}
    (hierarchy : s.hierarchy = cycleStore.hierarchy) (hresolving : "/f" ∉ s.resolving)
    (h : (s.attached "/f/a" "/f/a" "vpath = \"/f\"").outcome m = (.error cause, m)) :
    (s.virtualPath "/f").outcome m = (.error cause, m) := by
  have hfolder : cycleStore.find? (Text.joinPath "/" "f") = some (.plain "/f" .folder) := by
    decide
  have hchain : s.hierarchy.chain "/f" =
      .ok [⟨.plain "/" .folder, false⟩, ⟨.plain "/f" .folder, true⟩] := by
    rw [hierarchy]
    exact Selection.chain_single (by decide) (by decide) rfl (congrArg Except.ok hfolder) rfl
  have hchildren : s.hierarchy.children "/f" = .ok [cycleAlias] := by
    have hbelow : cycleStore.below "/f" = [cycleAlias] := by decide
    rw [hierarchy]
    exact congrArg Except.ok hbelow
  have hfresh : "/f" ∈ s.hierarchy.paths := by
    have hm : "/f" ∈ cycleStore.paths := by decide
    rw [hierarchy]
    exact hm
  have hfresh' : "/f/a" ∈ Hierarchy.without s.hierarchy.paths "/f" := by
    have hm : "/f/a" ∈ Hierarchy.without cycleStore.paths "/f" := by decide
    rw [hierarchy]
    exact hm
  have hlink : (s.expand true (Hierarchy.without s.hierarchy.paths "/f") cycleAlias).outcome m =
      (.error cause, m) := by
    rw [Selection.expand_link (c := cycleAlias) hfresh' rfl]
    refine outcome_bind_of_error ?_
    rw [Selection.own_some (c := cycleAlias) rfl, outcome_map, cycleAlias, Collection.plain, h]
    rfl
  have hmembers : (s.expandEach true (Hierarchy.without s.hierarchy.paths "/f")
      (s.visible [cycleAlias])).outcome m = (.error cause, m) := by
    have hvisible : s.visible [cycleAlias] = [cycleAlias] := by
      simp [Selection.visible, cycleAlias, Collection.plain]
    rw [hvisible, Selection.expandEach_cons]
    exact outcome_bind_of_error hlink
  have hexpand : (s.expand true s.hierarchy.paths (.plain "/f" .folder)).outcome m =
      (.error cause, m) := by
    rw [Selection.expand_folder (c := .plain "/f" .folder) hfresh rfl]
    exact (outcome_bind_of_ok (Selection.ofLookup_eq_ok.mpr ⟨hchildren, rfl⟩)).trans
      (outcome_bind_of_error hmembers)
  rw [Selection.virtualPath, Selection.resolve, if_neg hresolving,
    outcome_bind_of_ok (Selection.chain_eq_ok.mpr ⟨hchain, rfl⟩),
    outcome_bind_of_ok (Selection.walk_single (by decide) rfl rfl rfl m)]
  exact outcome_bind_of_error hexpand

/-- Whatever the limit, the levels run out at the alias. -/
theorem outcome_compileWithin_cycle {limits : Limits} {explicit : Bool} {levels : Nat}
    {resolving : List String} (hlength : limits.admits "vpath = \"/f\"" = true)
    (hresolving : "/f" ∉ resolving) (m : Memos) :
    (compileWithin ⟨cycleStore.hierarchy, limits⟩ explicit levels resolving
      "vpath = \"/f\"").outcome m = (.error (cycleCause limits.maxAliasDepth levels), m) := by
  have hreads := Comparison.reads_virtualPath "/f" .done
  have htext : (Filter.equals (.single .vpath) "/f").text = "vpath = \"/f\"" := by decide
  rw [← TokenStream.ofString_text, htext] at hreads
  induction levels generalizing resolving with
  | zero =>
    rw [compileWithin_of_admits hlength, parseExpression_of_reads hreads,
      Selection.compile_virtualPath]
    exact outcome_virtualPath_cycle rfl hresolving rfl
  | succ levels ih =>
    rw [compileWithin_of_admits hlength, parseExpression_of_reads hreads,
      Selection.compile_virtualPath]
    refine outcome_virtualPath_cycle rfl hresolving ?_
    have hnew : "/f" ∉ "/f/a" :: resolving := by
      rw [List.mem_cons, not_or]
      exact ⟨by decide, hresolving⟩
    have hattached := ih hnew
    simp only [selection, attachedWithin, outcome_mapError, hattached]
    rfl

/-- The levels run out in the store however many there are: the alias asks for the folder while the
folder is being resolved, and that is not noticed. -/
theorem not_backstop_cycleStore :
    (∀ limit, filter ⟨cycleStore.hierarchy, ⟨limit, 8192, false⟩⟩ "vpath = \"/f\"" false "" .empty =
      (.failed "" (cycleCause limit limit), .empty)) ∧ ¬cycleStore.Backstop := by
  have hfails : ∀ limit, filter ⟨cycleStore.hierarchy, ⟨limit, 8192, false⟩⟩ "vpath = \"/f\""
      false "" .empty = (.failed "" (cycleCause limit limit), .empty) := by
    intro limit
    have hlength : "vpath = \"/f\"".utf8ByteSize ≤ 8192 := by decide
    exact filter_of_error (outcome_compileWithin_cycle (decide_eq_true hlength) (by simp) .empty)
  refine ⟨hfails, ?_⟩
  rintro ⟨bound, hbound⟩
  refine hbound ⟨bound, 8192, false⟩ (Nat.le_refl _) (cycleCause bound bound) ?_
  exact ⟨[], ⟨"vpath = \"/f\"", false, ""⟩, .empty, bound, hfails bound,
    root_cycleCause bound bound⟩

end Store

end CalendarQuery

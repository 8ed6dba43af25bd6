import CalendarQuery.Proofs.Compiler.CollectionPath

/-!
# Collection paths that read back

A collection path selects collections under the paths where they are stored. Read again, such a path
selects that collection alone if its chain comes to the collection, as it does if nothing above it is
missing or an alias. A collection that is reached through an alias only may have a path that names
nothing.

* `Store.Selects`: what a collection path selects.
* `Selection.collectionPath_eq_ok`: the collection paths that are filters.
* `Compiler.filter_text_selecting`: the text of several collections.
* `Compiler.filter_collectionPath_stable`: the collections that a collection path selects, read
  again.
-/

namespace CalendarQuery

open Store Hierarchy Compilation

namespace Store

/-- The chain of the path has an end, and that leads to no cycle and selects the given paths. -/
def Selects (s : Store) (explicit : Bool) (path : String) (paths : List String) : Prop :=
  ∃ target, s.hierarchy.EndsAt path target ∧ ¬s.Cyclic explicit target ∧
    s.depthFirst explicit s.paths.length target = paths

variable {s : Store} {explicit : Bool} {path : String} {paths : List String}

theorem alone_of_mem (hs : s.Kept) (h : s.Selects explicit path paths) {q : String}
    (hq : q ∈ paths) : s.Alone explicit q := by
  obtain ⟨target, hends, hacyclic, rfl⟩ := h
  have hknows := hs.knows_of_endsAt hends
  exact alone_of_mem_depthFirst hs hknows (hs.bounded hknows hacyclic) hq

/-- A path that leads to what is stored there selects it alone if that selects itself alone. -/
theorem Alone.selects (hs : s.Kept) (h : s.Alone explicit path) (hleads : s.LeadsTo path) :
    s.Selects explicit path [path] := by
  obtain ⟨d, hd, hpath, -, hbounded, hself⟩ := h
  obtain ⟨target, hends, htarget⟩ := hleads
  obtain ⟨origin, rfl⟩ := (hs.knows_of_endsAt hends).eq_origin hd (htarget.trans hpath.symm)
  refine ⟨_, hends, ?_, ?_⟩
  · rw [cyclic_origin]
    exact hbounded.not_cyclic
  · rw [depthFirst_origin, hself]

theorem Alone.leadsTo (h : s.Alone explicit path) (hgrounded : s.Grounded path) :
    s.LeadsTo path := by
  obtain ⟨d, ⟨origin, hfind⟩, rfl, halias, -⟩ := h
  exact leadsTo_of_grounded hgrounded hfind halias

end Store

namespace Selection

variable {store : Store} {s : Selection} {path : String} {m m' : Memos} {f : Filter}

/-- A collection path is the filter of what it selects. -/
theorem collectionPath_eq_ok (hstore : store.Kept) (hs : s.hierarchy = store.hierarchy)
    (hresolving : path ∉ s.resolving) : (s.collectionPath path).outcome m = (.ok f, m') ↔
      m = m' ∧ ∃ paths, store.Selects s.explicit path paths ∧ Filter.selecting paths = some f := by
  constructor
  · intro h
    obtain ⟨-, target, hends, -⟩ := resolve_false_eq_ok.mp h
    rw [hs] at hends
    obtain ⟨hbounded, g, hg, hok⟩ | ⟨-, p, hp⟩ :=
      collectionPath_of_endsAt hstore hs hresolving hends
    · obtain ⟨rfl, rfl⟩ : g = f ∧ m = m' := by
        simpa using (hok m).symm.trans h
      exact ⟨rfl, _, ⟨target, hends, hbounded.not_cyclic, rfl⟩, hg⟩
    · cases (hp m).symm.trans h
  · rintro ⟨rfl, paths, ⟨target, hends, hacyclic, rfl⟩, hf⟩
    obtain ⟨-, g, hg, hok⟩ | ⟨hcycle, -⟩ :=
      collectionPath_of_endsAt hstore hs hresolving hends
    · obtain rfl := Option.some.inj (hg.symm.trans hf)
      exact hok m
    · exact absurd hcycle hacyclic

end Selection

/-! ## The text of several collections -/

namespace Filter

theorem normalEach_inCollection (paths : List String) :
    normalEach (paths.map inCollection) = paths.map inCollection := by
  induction paths with
  | nil => rfl
  | cons path paths ih => rw [List.map_cons, normalEach, ih]; rfl

theorem enclosing_inCollection (paths : List String) :
    enclosing (paths.map inCollection) = 0 := by
  induction paths with
  | nil => rfl
  | cons path paths ih => rw [List.map_cons, enclosing, ih]; rfl

end Filter

namespace Grammar

variable {c : Selection}

/-- A collection path that selects itself alone. -/
theorem writes_collection {path : String}
    (h : ∀ m, (c.collectionPath path).outcome m = (.ok (.inCollection path), m)) :
    Factor.Writes c (.comparison (.collectionPaths [path])) (.inCollection path) where
  spells s _ hgiven := (Comparison.reads_collectionPath path s).accepts hgiven
  nesting := rfl
  denote m := by
    rw [Factor.denote, Selection.compile_collectionPath]
    exact h m

theorem writes_further_collections {paths : List String}
    (h : ∀ path ∈ paths, ∀ m, (c.collectionPath path).outcome m = (.ok (.inCollection path), m)) :
    WriteFurther c (paths.map fun path => .comparison (.collectionPaths [path])) .or
      (paths.map Filter.inCollection) := by
  induction paths with
  | nil => exact writes_further_nil .or
  | cons path paths ih =>
    exact writes_further_cons (writes_collection (h path List.mem_cons_self))
      (ih fun other hm => h other (List.mem_cons_of_mem path hm))

end Grammar

namespace Compiler

open Selection

variable {c : Compiler} {explicit : Bool} {text source path : String} {m m' : Memos} {f : Filter}

/-- The text of a group of collections reads back if each of their paths does. -/
theorem filter_text_selecting {paths : List String} (hlength : c.limits.admits f.text = true)
    (hpaths : ∀ path ∈ paths, ∀ m,
      ((c.selection explicit c.limits.maxAliasDepth []).collectionPath path).outcome m =
        (.ok (.inCollection path), m))
    (hf : Filter.selecting paths = some f) : c.filter f.text explicit source m = (.filter f, m) := by
  match paths with
  | [] => cases hf
  | [path] =>
    obtain rfl : Filter.inCollection path = f := Option.some.inj hf
    rw [filter_eq_filter, outcome_compile_of_asks hlength (asks_text path)]
    exact hpaths path (List.mem_singleton_self path) m
  | path :: other :: paths =>
    rw [Filter.selecting_of_ne_nil (List.cons_ne_nil _ _), Filter.merged_inCollection] at hf
    obtain rfl := Option.some.inj hf
    have hlevel := Grammar.writes_level .or
      (Grammar.writes_collection (hpaths path List.mem_cons_self))
      (Grammar.writes_further_collections fun p hm => hpaths p (List.mem_cons_of_mem path hm))
    have hdenote := hlevel.denote m
    have hgiven := TokenStream.given_ofString
      (Filter.or ((path :: other :: paths).map Filter.inCollection)).text
    rw [← List.map_cons, Filter.normalEach_inCollection, Filter.merged_inCollection] at hdenote
    rw [TokenStream.ofString_text] at hgiven
    rw [filter_eq_filter, compile, compileWithin_eq_ok, TokenStream.ofString_text]
    refine ⟨hlength, _, hlevel.spells _ Grammar.ends_done hgiven, ?_, hdenote⟩
    rw [hlevel.nesting, ← List.map_cons, Filter.enclosing_inCollection]
    exact Nat.zero_le _

/-- The text asks for what the store selects under the path. -/
theorem filter_of_asks {store : Store} {limits : Limits} (hstore : store.Kept)
    (hlength : limits.admits text = true) (hasks : Asks text path) :
    (Compiler.mk store.hierarchy limits).filter text explicit source m = (.filter f, m') ↔
      m = m' ∧ ∃ paths, store.Selects explicit path paths ∧ Filter.selecting paths = some f := by
  rw [filter_eq_filter, outcome_compile_of_asks hlength hasks]
  exact collectionPath_eq_ok (s := selection ⟨store.hierarchy, limits⟩ explicit limits.maxAliasDepth [])
    hstore rfl (by simp [selection])

/-- The collections that a collection path selects, each read as a collection path. An absolute one
is selected alone by its path if and only if the chain of the path ends with a collection that
selects nothing else. That is so if the chain comes to the collection itself, and hence if there is
a collection at each path above it, none of them an alias. If it is so for all of them, the text of
the filter reads back. -/
theorem filter_collectionPath_stable (store : Store) (hstore : store.Built) (limits : Limits)
    (explicit : Bool) (path text source : String) (m m' : Memos) (f : Filter)
    (hasks : Asks text path)
    (hf : (Compiler.mk store.hierarchy limits).filter text explicit source m = (.filter f, m')) :
    let c : Compiler := ⟨store.hierarchy, limits⟩
    (∀ q ∈ f.leaves, Text.isAbsolute q = true → ∀ text', limits.admits text' = true →
      Asks text' q → (c.filter text' explicit source m = (.filter (.inCollection q), m) ↔
        store.Selects explicit q [q])) ∧
    (∀ q ∈ f.leaves, store.LeadsTo q → store.Selects explicit q [q]) ∧
    (∀ q ∈ f.leaves, store.Grounded q → store.LeadsTo q) ∧
    ((∀ q ∈ f.leaves, store.Selects explicit q [q]) → limits.admits f.text = true →
      c.filter f.text explicit source m = (.filter f, m)) := by
  intro c
  have hkept := hstore.kept
  obtain ⟨hlength, -⟩ := compileWithin_eq_ok.mp (filter_eq_filter.mp hf)
  obtain ⟨-, paths, hselects, hselecting⟩ := (filter_of_asks hkept hlength hasks).mp hf
  rw [Filter.leaves_of_selecting hselecting]
  have halone : ∀ q ∈ paths, store.Alone explicit q := fun q hq => alone_of_mem hkept hselects hq
  refine ⟨fun q _ _ text' hlength' hasks' => ?_, fun q hq => (halone q hq).selects hkept,
    fun q hq => (halone q hq).leadsTo, fun hall hlength' => ?_⟩
  · rw [filter_of_asks hkept hlength' hasks']
    constructor
    · rintro ⟨-, paths', hselects', hselecting'⟩
      have hpaths := Filter.leaves_of_selecting hselecting'
      rwa [← hpaths] at hselects'
    · exact fun hself => ⟨rfl, [q], hself, rfl⟩
  · let s := c.selection explicit limits.maxAliasDepth []
    refine filter_text_selecting hlength' (fun q hq m => ?_) hselecting
    exact (collectionPath_eq_ok (s := s) hkept rfl (by simp [s, selection])).mpr
      ⟨rfl, [q], hall q hq, rfl⟩

/-- What the folder selects reads back. -/
theorem filter_collectionPath_stable_campus :
    let c : Compiler := ⟨campusStore.hierarchy, .standard⟩
    let f : Filter := .or (["/f/b", "/f/e", "/f/e", "/f/e"].map Filter.inCollection)
    c.filter (Filter.inCollection "/f").text false "" .empty = (.filter f, .empty) ∧
      (∀ q ∈ f.leaves, campusStore.Selects false q [q]) ∧
      c.filter f.text false "" .empty = (.filter f, .empty) := by
  intro c f
  have hkept : campusStore.Kept := Built.kept ⟨_, rfl⟩
  have hselects : campusStore.Selects false "/f" ["/f/b", "/f/e", "/f/e", "/f/e"] :=
    ⟨_, endsAt_campus, bounded_campus.not_cyclic, by decide⟩
  have hf : c.filter (Filter.inCollection "/f").text false "" .empty = (.filter f, .empty) :=
    (filter_of_asks hkept (by decide) (asks_text "/f")).mpr ⟨rfl, _, hselects, rfl⟩
  have hgrounded : ∀ name, Text.pathSegments ("/f/" ++ name) = ["f", name] →
      Text.joinPath "/f" name = "/f/" ++ name → campusStore.Grounded ("/f/" ++ name) := by
    intro name hsegments hjoin
    refine ⟨by rw [hsegments]; exact hjoin, fun n hpos hlt => ?_⟩
    rw [hsegments] at hlt ⊢
    obtain rfl : n = 1 := by
      simp only [List.length_cons, List.length_nil] at hlt
      omega
    have hfolder : campusStore.find? "/f" = some (.plain "/f" .folder) := by decide
    exact ⟨_, hfolder, rfl⟩
  obtain ⟨-, hself, hleads, htext⟩ := filter_collectionPath_stable campusStore ⟨_, rfl⟩ .standard
    false "/f" _ "" .empty .empty f (asks_text "/f") hf
  have hleaves : ∀ q ∈ f.leaves, campusStore.Selects false q [q] := by
    intro q hq
    refine hself q hq (hleads q hq ?_)
    have hcases : q = "/f/" ++ "b" ∨ q = "/f/" ++ "e" := by
      have hq' : q ∈ ["/f/b", "/f/e", "/f/e", "/f/e"] := hq
      simpa using hq'
    rcases hcases with rfl | rfl
    · exact hgrounded "b" (by decide) (by decide)
    · exact hgrounded "e" (by decide) (by decide)
  exact ⟨hf, hleaves, htext hleaves (by decide)⟩

/-! ## A calendar without folders above it -/

/-- The alias of the calendar. -/
def orphanAlias : Collection := { Collection.plain "/a" .link with target := some "/public/cal" }

/-- A calendar in folders that are not there, and an alias of it. -/
def orphanStore : Store :=
  empty.offerAll [.plain "/public/cal" .calendar, orphanAlias]

theorem selects_orphan : orphanStore.Selects false "/a" ["/public/cal"] := by
  let h := orphanStore.hierarchy
  have hroot : h.collection "/" = .ok (some (.plain "/" .folder)) := by
    have hfind : orphanStore.find? "/" = some (.plain "/" .folder) := by decide
    exact congrArg Except.ok hfind
  have halias : h.collection (Text.joinPath "/" "a") = .ok (some orphanAlias) := by
    have hfind : orphanStore.find? (Text.joinPath "/" "a") = some orphanAlias := by decide
    exact congrArg Except.ok hfind
  have hcalendar : h.collection "/public/cal" = .ok (some (.plain "/public/cal" .calendar)) := by
    have hfind : orphanStore.find? "/public/cal" = some (.plain "/public/cal" .calendar) := by decide
    exact congrArg Except.ok hfind
  have hfollow : h.follow h.paths orphanAlias =
      .ok ⟨[orphanAlias], some (.plain "/public/cal" .calendar)⟩ :=
    follow_of_target (by decide) (by decide) rfl hcalendar (follow_of_not_alias rfl _)
  let reached : Collection := { Collection.plain "/public/cal" .calendar with origin := some "/a" }
  have hdescend : h.descend "/" ["a"] = .ok [⟨orphanAlias, false⟩, ⟨reached, true⟩] :=
    descend_cons_eq_ok.mpr (.inr ⟨_, _, halias, hfollow, .inr ⟨_, [], rfl, rfl, rfl⟩⟩)
  have hsegments : Text.pathSegments "/a" = ["a"] := by decide
  have hchain : h.chain "/a" =
      .ok [⟨.plain "/" .folder, false⟩, ⟨orphanAlias, false⟩, ⟨reached, true⟩] := by
    refine chain_eq_ok.mpr ⟨by decide, _, [⟨orphanAlias, false⟩, ⟨reached, true⟩], hroot, ?_, ?_⟩
    · rw [hsegments]
      exact hdescend
    · rw [hsegments]
      rfl
  have hbounded : orphanStore.Bounded false reached := bounded_of_next [] rfl (by simp)
  exact ⟨_, ⟨_, hchain, ⟨rfl, rfl⟩, by decide⟩, hbounded.not_cyclic, rfl⟩

/-- The chain of the calendar's own path stops at the root. -/
theorem chain_orphan : orphanStore.hierarchy.chain "/public/cal" =
    .ok [⟨.plain "/" .folder, false⟩] := by
  have hroot : orphanStore.find? "/" = some (.plain "/" .folder) := by decide
  have hmissing : orphanStore.find? (Text.joinPath "/" "public") = none := by decide
  have hsegments : Text.pathSegments "/public/cal" = ["public", "cal"] := by decide
  refine chain_eq_ok.mpr ⟨by decide, _, [], congrArg Except.ok hroot, ?_, ?_⟩
  · rw [hsegments]
    exact descend_cons_eq_ok.mpr (.inl ⟨congrArg Except.ok hmissing, rfl⟩)
  · rw [hsegments]
    rfl

/-- The alias selects the calendar, whose path names nothing. -/
theorem filter_collectionPath_orphan :
    let c : Compiler := ⟨orphanStore.hierarchy, .standard⟩
    c.filter "colpath = \"/a\"" false "" .empty =
        (.filter (.inCollection "/public/cal"), .empty) ∧
      (Filter.inCollection "/public/cal").text = "colpath = \"/public/cal\"" ∧
      c.filter "colpath = \"/public/cal\"" false "" .empty =
        (.failed "" (.badVpath "/public/cal"), .empty) := by
  intro c
  have hkept : orphanStore.Kept := Built.kept ⟨_, rfl⟩
  have halias : (Filter.inCollection "/a").text = "colpath = \"/a\"" := by decide
  have hcalendar : (Filter.inCollection "/public/cal").text = "colpath = \"/public/cal\"" := by
    decide
  refine ⟨?_, hcalendar, ?_⟩
  · rw [← halias]
    exact (filter_of_asks hkept (by decide) (asks_text "/a")).mpr ⟨rfl, _, selects_orphan, rfl⟩
  · rw [← hcalendar]
    refine filter_of_error ?_
    rw [outcome_compile_of_asks (by decide) (asks_text "/public/cal"), collectionPath, resolve,
      if_neg (by simp [selection])]
    change outcome (Compilation.ofExcept ((orphanStore.hierarchy.chain "/public/cal").mapError
      walkError) >>= _) .empty = _
    rw [chain_orphan]
    rfl

end Compiler

end CalendarQuery

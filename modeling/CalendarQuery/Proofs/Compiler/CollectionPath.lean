import CalendarQuery.Proofs.Comparison.Written
import CalendarQuery.Proofs.Hierarchy.Grounded
import CalendarQuery.Proofs.Selection.DepthFirst

/-!
# The meaning of a collection path

The chain of a collection path is walked without attached filters: it has an end, or some collection
comes twice, or nothing is found. What the end expands to is the meaning of the path. In a store that
was built by adding collections the expansion goes depth first, and it fails only for a cycle.

* `Selection.resolve_false_eq_ok`: the collection paths that are filters, over any hierarchy.
* `Selection.collectionPath_of_endsAt`: what the end of a chain in a store selects.
* `Compiler.Asks`: the texts that ask for a collection path.
* `Compiler.filter_collectionPath_iff`: when such a text is a filter, and what that selects.
-/

namespace CalendarQuery

namespace Selection

open Compilation Hierarchy

variable {s : Selection} {vpath : String} {m m' : Memos}

/-! ## Walks without filters -/

theorem ending_cons_cons {step next : ChainStep} {steps : List ChainStep} {target : Collection} :
    Ending (step :: next :: steps) target ↔ Ending (next :: steps) target := by
  rw [Ending, List.getLast?_cons_cons]
  rfl

theorem ending_singleton {step : ChainStep} {target : Collection} :
    Ending [step] target ↔ Ends step ∧ step.collection = target := by
  obtain ⟨c, terminal⟩ := step
  simp only [Ending, Ends, List.getLast?_singleton, Option.some.injEq, ChainStep.mk.injEq,
    Bool.and_eq_true, Bool.not_eq_true']
  constructor
  · rintro ⟨⟨rfl, rfl⟩, halias⟩
    exact ⟨⟨rfl, halias⟩, rfl⟩
  · rintro ⟨⟨rfl, halias⟩, rfl⟩
    exact ⟨⟨rfl, rfl⟩, halias⟩

/-- A walk without filters finds the end of the chain if no collection comes twice. -/
theorem walk_false_eq_ok {steps : List ChainStep} {seen : List String} {filters : List Filter}
    {target : Collection} (hlast : ∀ step ∈ steps.dropLast, step.terminal = false) :
    (s.walk vpath false seen steps).outcome m = (.ok (filters, some target), m') ↔
      filters = [] ∧ m = m' ∧ Ending steps target ∧ Distinct seen steps := by
  induction steps generalizing seen filters with
  | nil => simp [walk, Ending]
  | cons step steps ih =>
    rw [walk, distinct_cons]
    simp only [own_false, pure_bind]
    by_cases hseen : step.collection.path ∈ seen
    · simp [hseen]
    rw [if_neg hseen]
    simp only [hseen, not_false_eq_true, true_and]
    cases steps with
    | nil =>
      rw [ending_singleton, Ends]
      by_cases hend : (step.terminal && !step.collection.isAlias) = true
      · rw [if_pos hend, Compilation.pure_eq_ok]
        constructor
        · rintro ⟨heq, rfl⟩
          obtain ⟨rfl, htarget⟩ := Prod.mk.inj heq
          exact ⟨rfl, rfl, ⟨hend, Option.some.inj htarget⟩, List.nodup_nil, by simp [passedPaths]⟩
        · rintro ⟨rfl, rfl, ⟨-, rfl⟩, -⟩
          exact ⟨rfl, rfl⟩
      · rw [if_neg hend]
        simp [hend, walk]
    | cons next steps =>
      have hstep : (step.terminal && !step.collection.isAlias) = false := by
        rw [hlast step (by simp), Bool.false_and]
      have hrest : ∀ step ∈ (next :: steps).dropLast, step.terminal = false := fun step hm =>
        hlast step (List.mem_cons_of_mem _ hm)
      rw [hstep, ending_cons_cons, ← ih hrest]
      simp only [Bool.false_eq_true, if_false, Option.toList_none, List.nil_append]
      change outcome (_ >>= pure) m = _ ↔ _
      rw [bind_pure]

theorem walk_false_of_ending {steps : List ChainStep} {target : Collection}
    (hlast : ∀ step ∈ steps.dropLast, step.terminal = false) (hending : Ending steps target)
    (hnodup : (passedPaths steps).Nodup) (m : Memos) :
    (s.walk vpath false [] steps).outcome m = (.ok ([], some target), m) :=
  (walk_false_eq_ok hlast).mpr ⟨rfl, rfl, hending, distinct_nil_left.mpr hnodup⟩

/-- A collection path whose chain has an end is what the end expands to. -/
theorem resolve_false_of_endsAt {target : Collection} (hresolving : vpath ∉ s.resolving)
    (h : s.hierarchy.EndsAt vpath target) (m : Memos) :
    (s.resolve vpath false).outcome m = outcome (do
      match ← s.expand false s.hierarchy.paths target with
      | none => throw (.badVpath vpath)
      | some f => return f) m := by
  obtain ⟨steps, hsteps, hending, hnodup⟩ := h
  have hwalk : (s.walk vpath false [] steps).outcome m = (.ok ([], some target), m) :=
    walk_false_of_ending (not_terminal_of_chain hsteps) hending hnodup m
  rw [resolve, if_neg hresolving, outcome_bind_of_ok (chain_eq_ok.mpr ⟨hsteps, rfl⟩),
    outcome_bind_of_ok hwalk]
  rfl

/-- A collection path is a filter if and only if it is not being resolved and its chain has an end
that expands. -/
theorem resolve_false_eq_ok {f : Filter} :
    (s.resolve vpath false).outcome m = (.ok f, m') ↔ vpath ∉ s.resolving ∧
      ∃ target, s.hierarchy.EndsAt vpath target ∧
        (s.expand false s.hierarchy.paths target).outcome m = (.ok (some f), m') := by
  constructor
  · intro h
    by_cases hresolving : vpath ∈ s.resolving
    · rw [resolve_of_resolving hresolving] at h
      cases h
    rw [resolve, if_neg hresolving] at h
    obtain ⟨steps, m₁, h₁, h⟩ := bind_eq_ok.mp h
    obtain ⟨hsteps, rfl⟩ := chain_eq_ok.mp h₁
    obtain ⟨⟨filters, found⟩, m₂, h₂, h⟩ := bind_eq_ok.mp h
    cases found with
    | none => cases h
    | some target =>
      obtain ⟨-, rfl, hending, hdistinct⟩ := (walk_false_eq_ok (not_terminal_of_chain hsteps)).mp h₂
      have hends : s.hierarchy.EndsAt vpath target :=
        ⟨steps, hsteps, hending, distinct_nil_left.mp hdistinct⟩
      obtain ⟨o, m₃, hexpand, h⟩ := bind_eq_ok.mp h
      cases o with
      | none => cases h
      | some inner =>
        obtain ⟨rfl, rfl⟩ := Compilation.pure_eq_ok.mp h
        exact ⟨hresolving, target, hends, hexpand⟩
  · rintro ⟨hresolving, target, hends, hexpand⟩
    rw [resolve_false_of_endsAt hresolving hends, outcome_bind_of_ok hexpand]
    rfl

/-- The end of the chain of a path in a store selects something, or leads to a cycle. -/
theorem collectionPath_of_endsAt {store : Store} (hstore : store.Kept)
    (hs : s.hierarchy = store.hierarchy) (hresolving : vpath ∉ s.resolving) {target : Collection}
    (hends : store.hierarchy.EndsAt vpath target) :
    (store.Bounded s.explicit target ∧ ∃ f,
      Filter.selecting (store.depthFirst s.explicit store.paths.length target) = some f ∧
      ∀ m, (s.collectionPath vpath).outcome m = (.ok f, m)) ∨
    (store.Cyclic s.explicit target ∧ ∃ path,
      ∀ m, (s.collectionPath vpath).outcome m = (.error (.aliasCycle path), m)) := by
  have hresolve := resolve_false_of_endsAt hresolving (by rw [hs]; exact hends)
  simp only [collectionPath, hresolve, hs]
  obtain ⟨hbounded, hexpand⟩ | ⟨hcycle, path, hexpand⟩ :=
    expand_paths hstore hs (hstore.knows_of_endsAt hends)
  · have hpos : 0 < store.paths.length := by simp [Store.paths]
    have hne : store.depthFirst s.explicit store.paths.length target ≠ [] := by
      obtain ⟨_, _, hending, _⟩ := hends
      exact Store.depthFirst_ne_nil hpos hending.2
    have hsome := Filter.selecting_of_ne_nil hne
    refine .inl ⟨hbounded, _, hsome, fun m => ?_⟩
    change outcome (s.expand false store.paths target >>= _) m = _
    rw [hexpand _ le_rfl, hsome]
    rfl
  · refine .inr ⟨hcycle, path, fun m => ?_⟩
    change outcome (s.expand false store.paths target >>= _) m = _
    rw [hexpand]
    rfl

end Selection

namespace Compiler

open Compilation Hierarchy Selection Store

variable {c : Compiler} {explicit : Bool} {path text : String}

/-- The text is a comparison that asks for the collection path. -/
def Asks (text path : String) : Prop :=
  Reader.Reads Comparison.readNext (TokenStream.ofString text) (.collectionPaths [path]) .done

theorem asks_text (path : String) : Asks (Filter.inCollection path).text path := by
  have hreads := Comparison.reads_collectionPath path .done
  rwa [← TokenStream.ofString_text] at hreads

theorem outcome_compile_of_asks (hlength : c.limits.admits text = true) (h : Asks text path)
    (m : Memos) : (c.compile explicit text).outcome m =
      ((c.selection explicit c.limits.maxAliasDepth []).collectionPath path).outcome m := by
  rw [outcome_compile_of_reads hlength h, comparing, Selection.compile_collectionPath]

/-- A collection path whose chain ends with a collection that is no alias, and passes through none
twice, is a filter if and only if the expansion of that collection leads to no cycle. The filter
then selects the calendars and the folders without members that the expansion meets, depth first and
in the order of their paths, and nothing else. Otherwise the cycle is reported. -/
theorem filter_collectionPath_iff (store : Store) (hstore : store.Built) (limits : Limits)
    (explicit : Bool) (path text source : String) (m : Memos) (target : Collection)
    (hlength : limits.admits text = true) (hasks : Asks text path)
    (hends : store.hierarchy.EndsAt path target) :
    let c : Compiler := ⟨store.hierarchy, limits⟩
    ((∃ p, c.filter text explicit source m = (.failed source (.aliasCycle p), m)) ↔
      store.Cyclic explicit target) ∧
    (¬store.Cyclic explicit target → ∃ f, c.filter text explicit source m = (.filter f, m) ∧
      ∀ depth, store.paths.length ≤ depth →
        f.leaves = store.depthFirst explicit depth target ∧
        Filter.any? ((store.depthFirst explicit depth target).map Filter.inCollection) = some f) ∧
    ∀ d, Ordered (store.next explicit d) := by
  intro c
  let s := c.selection explicit limits.maxAliasDepth []
  have hkept := hstore.kept
  have hknows := hkept.knows_of_endsAt hends
  have hcompile : (c.compile explicit text).outcome m = (s.collectionPath path).outcome m :=
    outcome_compile_of_asks hlength hasks m
  rw [← and_assoc]
  refine ⟨?_, ordered_next hkept explicit⟩
  obtain ⟨hbounded, f, hselecting, hf⟩ | ⟨hcycle, p, hp⟩ := collectionPath_of_endsAt (s := s) hkept
    rfl (by simp [s, selection]) hends
  · have hfilter : c.filter text explicit source m = (.filter f, m) :=
      filter_eq_filter.mpr (hcompile.trans (hf m))
    refine ⟨iff_of_false ?_ hbounded.not_cyclic, fun _ => ⟨f, hfilter, fun depth hdepth => ?_⟩⟩
    · rintro ⟨p, hp⟩
      cases hfilter.symm.trans hp
    · have hdeep : store.depthFirst explicit depth target =
          store.depthFirst explicit store.paths.length target :=
        depthFirst_eq hkept hknows hbounded hdepth
      rw [hdeep]
      exact ⟨Filter.leaves_of_selecting hselecting, hselecting⟩
  · exact ⟨iff_of_true ⟨p, filter_of_error (hcompile.trans (hp m))⟩ hcycle,
      fun hacyclic => absurd hcycle hacyclic⟩

/-! ## A folder with all kinds of members -/

/-- A folder that holds a calendar, an empty folder with two aliases, a hidden calendar, and an alias
that leads nowhere. -/
def campusStore : Store :=
  empty.offerAll [.plain "/f" .folder, .plain "/f/b" .calendar, .plain "/f/e/" .folder,
    { Collection.plain "/f/h" .calendar with display := false },
    { Collection.plain "/f/l" .link with target := some "/f/e" },
    { Collection.plain "/f/m" .link with target := some "/f/e" },
    { Collection.plain "/f/z" .link with target := some "/g" }]

theorem endsAt_campus : campusStore.hierarchy.EndsAt "/f" (.plain "/f" .folder) := by
  have hfolder : campusStore.find? (Text.joinPath "/" "f") = some (.plain "/f" .folder) := by
    decide
  have hroot : campusStore.find? "/" = some (.plain "/" .folder) := by decide
  have hchain : campusStore.hierarchy.chain "/f" =
      .ok [⟨.plain "/" .folder, false⟩, ⟨.plain "/f" .folder, true⟩] :=
    chain_single (by decide) (by decide) (congrArg Except.ok hroot) (congrArg Except.ok hfolder) rfl
  exact ⟨_, hchain, ⟨rfl, rfl⟩, by decide⟩

theorem bounded_campus : campusStore.Bounded false (.plain "/f" .folder) := by
  have hempty : campusStore.Bounded false (.plain "/f/e" .folder) :=
    bounded_of_next [] (by decide) (by simp)
  have hlink : ∀ path, campusStore.Bounded false
      { Collection.plain path .link with target := some "/f/e" } := fun path =>
    bounded_of_next [.plain "/f/e" .folder] (by
      have htarget : campusStore.find? "/f/e" = some (.plain "/f/e" .folder) := by decide
      exact congrArg Option.toList htarget) (by simpa using hempty)
  refine bounded_of_next [.plain "/f/b" .calendar, .plain "/f/e" .folder,
    { Collection.plain "/f/l" .link with target := some "/f/e" },
    { Collection.plain "/f/m" .link with target := some "/f/e" },
    { Collection.plain "/f/z" .link with target := some "/g" }] (by decide) ?_
  simp only [List.forall_mem_cons]
  exact ⟨bounded_of_next [] (by decide) (by simp), hempty, hlink _, hlink _,
    bounded_of_next [] (by decide) (by simp), by simp⟩

/-- The folder selects the calendar, and the empty folder as often as there are ways to it. -/
theorem filter_collectionPath_campus :
    (Filter.inCollection "/f").text = "colpath = \"/f\"" ∧
    ∃ f, (⟨campusStore.hierarchy, .standard⟩ : Compiler).filter (Filter.inCollection "/f").text false
        "" .empty = (.filter f, .empty) ∧ f.leaves = ["/f/b", "/f/e", "/f/e", "/f/e"] := by
  have hexact := filter_collectionPath_iff campusStore ⟨_, rfl⟩ .standard false "/f"
    (Filter.inCollection "/f").text "" .empty _ (by decide) (asks_text "/f") endsAt_campus
  obtain ⟨f, hf, hleaves⟩ := hexact.2.1 bounded_campus.not_cyclic
  exact ⟨by decide, f, hf, (hleaves 8 (by decide)).1.trans (by decide)⟩

end Compiler

end CalendarQuery

import CalendarQuery.Proofs.Compiler.Stable
import Mathlib.Data.List.Flatten

/-!
# Explicit selection

An explicit selection enters hidden collections as well. Its graph has all edges of the graph of a
selection that is not explicit, and so a cycle of the one is a cycle of the other. What it selects
need not contain what the other selects: a folder whose members are all hidden stands for itself in
the one and for its members in the other. But the calendars that are selected are selected by both,
in the same order.

* `Store.next_sublist`: an explicit selection enters at least the same collections.
* `Store.calendars`: the calendars among some paths.
* `Store.calendars_depthFirst_sublist`: an expansion, hidden collections left out or not.
* `Compiler.filter_explicit_sublist`: the same for a collection path.
-/

namespace CalendarQuery

namespace Store

open Relation

variable {s : Store} {c d : Collection}

/-! ## Two graphs -/

/-- A folder has at least as many members for an explicit selection, in the same order. -/
theorem next_sublist (s : Store) (c : Collection) :
    (s.next false c).Sublist (s.next true c) := by
  unfold next
  cases c.kind with
  | calendar => exact List.Sublist.refl _
  | folder => exact List.monotone_filter_right _ fun d hd => by simp
  | link => exact List.Sublist.refl _

theorem Enters.explicit (h : s.Enters false c d) : s.Enters true c d :=
  (s.next_sublist c).subset h

/-- Hidden collections close no cycle. -/
theorem Cyclic.explicit (h : s.Cyclic false c) : s.Cyclic true c := by
  obtain ⟨d, hcd, hcycle⟩ := h
  have hedges : s.Enters false ≤ s.Enters true := fun _ _ => Enters.explicit
  exact ⟨d, ReflTransGen.mono hedges _ _ hcd, TransGen.mono hedges _ _ hcycle⟩

/-! ## Calendars -/

/-- A calendar is stored at the path. -/
def holdsCalendar (s : Store) (path : String) : Bool :=
  s.collections.any fun c => c.path == path && c.kind == .calendar

/-- The paths at which calendars are stored, in the given order. -/
def calendars (s : Store) (paths : List String) : List String := paths.filter s.holdsCalendar

/-- At the path of a folder no calendar is stored. -/
theorem not_holdsCalendar_folder (hs : s.Kept) (hc : s.Knows c) (hk : c.kind = .folder) :
    s.holdsCalendar c.path = false := by
  rw [holdsCalendar, List.any_eq_false]
  intro d hd hcalendar
  obtain ⟨hpath, hkind⟩ := Bool.and_eq_true_iff.mp hcalendar
  have hknown : s.Knows d := ⟨d.origin, hs.find?_self hd⟩
  obtain ⟨origin, rfl⟩ := hknown.eq_origin hc (beq_iff_eq.mp hpath)
  have hfolder : c.kind = .calendar := beq_iff_eq.mp hkind
  cases hk.symm.trans hfolder

theorem calendars_flatMap (s : Store) (cs : List Collection) (f : Collection → List String) :
    s.calendars (cs.flatMap f) = cs.flatMap fun c => s.calendars (f c) :=
  List.filter_flatMap ..

/-- A folder that stands for itself adds no calendar to those of its members. -/
theorem calendars_orSelf (hs : s.Kept) (hc : s.Knows c) (hk : c.kind = .folder)
    (inner : List String) :
    s.calendars (if inner.isEmpty then [c.path] else inner) = s.calendars inner := by
  by_cases hempty : inner.isEmpty
  · have hself : s.calendars [c.path] = [] := by
      simp [calendars, not_holdsCalendar_folder hs hc hk]
    rw [if_pos hempty, hself, List.isEmpty_iff.mp hempty]
    rfl
  · rw [if_neg hempty]

/-- The calendars that an expansion selects, without the hidden collections and with them; the
induction is on the number of edges. -/
theorem calendars_depthFirst_sublist (hs : s.Kept) (depth : ℕ) (hc : s.Knows c) :
    (s.calendars (s.depthFirst false depth c)).Sublist
      (s.calendars (s.depthFirst true depth c)) := by
  induction depth generalizing c with
  | zero => exact List.Sublist.refl _
  | succ depth ih =>
    have hinner : (s.calendars ((s.next false c).flatMap (s.depthFirst false depth))).Sublist
        (s.calendars ((s.next true c).flatMap (s.depthFirst true depth))) := by
      rw [calendars_flatMap, calendars_flatMap]
      -- first more of each member, then more members
      exact (List.Sublist.flatMap_right _ fun d hd => ih (Enters.knows hs hd)).trans
        ((s.next_sublist c).flatMap _)
    rw [depthFirst, depthFirst]
    cases hk : c.kind with
    | calendar => exact List.Sublist.refl _
    | folder =>
      simp only [calendars_orSelf hs hc hk]
      exact hinner
    | link => exact hinner

/-- What can be selected explicitly can be selected, and then explicit selection selects the same
calendars and perhaps more, in the same order. -/
theorem Selects.of_explicit (hs : s.Kept) {path : String} {paths : List String}
    (h : s.Selects true path paths) : ∃ paths', s.Selects false path paths' ∧ paths' ≠ [] ∧
      (s.calendars paths').Sublist (s.calendars paths) := by
  obtain ⟨target, hends, hacyclic, rfl⟩ := h
  have halias : target.isAlias = false := by
    obtain ⟨_, _, hending, _⟩ := hends
    exact hending.2
  exact ⟨_, ⟨target, hends, fun hcycle => hacyclic hcycle.explicit, rfl⟩,
    depthFirst_ne_nil (by simp [Store.paths]) halias,
    calendars_depthFirst_sublist hs _ (hs.knows_of_endsAt hends)⟩

end Store

namespace Compiler

open Store Hierarchy

/-! ## Collection paths -/

/-- A collection path that can be selected explicitly can be selected without hidden collections as
well, whatever the memos. All calendars that it selects then are among those that it selects
explicitly, each as often and in the same order. -/
theorem filter_explicit_sublist (store : Store) (hstore : store.Built) (limits : Limits)
    (path text source : String) (m m' : Memos) (g : Filter) (hasks : Asks text path)
    (hg : (Compiler.mk store.hierarchy limits).filter text true source m = (.filter g, m')) :
    let c : Compiler := ⟨store.hierarchy, limits⟩
    ∃ f, (∀ source' m₁, c.filter text false source' m₁ = (.filter f, m₁)) ∧
      (store.calendars f.leaves).Sublist (store.calendars g.leaves) := by
  intro c
  have hkept := hstore.kept
  obtain ⟨hlength, -⟩ := compileWithin_eq_ok.mp (filter_eq_filter.mp hg)
  obtain ⟨-, paths, hselects, hselecting⟩ := (filter_of_asks hkept hlength hasks).mp hg
  obtain ⟨paths', hselects', hne, hsublist⟩ := hselects.of_explicit hkept
  obtain ⟨f, hf⟩ : ∃ f, Filter.selecting paths' = some f :=
    ⟨_, Filter.selecting_of_ne_nil hne⟩
  refine ⟨f, fun source' m₁ => ?_, ?_⟩
  · exact (filter_of_asks hkept hlength hasks).mpr ⟨rfl, paths', hselects', hf⟩
  · rw [Filter.leaves_of_selecting hf, Filter.leaves_of_selecting hselecting]
    exact hsublist

/-! ## A folder that seems empty -/

/-- A calendar beside a folder whose only calendar is hidden, and an alias of that folder. -/
def atticStore : Store :=
  empty.offerAll [.plain "/a" .folder, { Collection.plain "/a/h" .calendar with display := false },
    .plain "/b" .calendar, { Collection.plain "/l" .link with target := some "/a" }]

theorem endsAt_attic : atticStore.hierarchy.EndsAt "/" (.plain "/" .folder) := by
  have hroot : atticStore.find? "/" = some (.plain "/" .folder) := by decide
  have hsegments : Text.pathSegments "/" = [] := by decide
  have hchain : atticStore.hierarchy.chain "/" = .ok [⟨.plain "/" .folder, true⟩] :=
    chain_eq_ok.mpr ⟨by decide, _, [], congrArg Except.ok hroot, by rw [hsegments]; rfl,
      by rw [hsegments]; rfl⟩
  exact ⟨_, hchain, ⟨rfl, rfl⟩, by decide⟩

theorem bounded_attic : atticStore.Bounded true (.plain "/" .folder) := by
  have hhidden : atticStore.Bounded true
      { Collection.plain "/a/h" .calendar with display := false } :=
    bounded_of_next [] (by decide) (by simp)
  have hfolder : atticStore.Bounded true (.plain "/a" .folder) :=
    bounded_of_next [{ Collection.plain "/a/h" .calendar with display := false }] (by decide)
      (by simpa using hhidden)
  have hlink : atticStore.Bounded true
      { Collection.plain "/l" .link with target := some "/a" } :=
    bounded_of_next [.plain "/a" .folder] (by
      have htarget : atticStore.find? "/a" = some (.plain "/a" .folder) := by decide
      exact congrArg Option.toList htarget) (by simpa using hfolder)
  refine bounded_of_next [.plain "/a" .folder, .plain "/b" .calendar,
    { Collection.plain "/l" .link with target := some "/a" }] (by decide) ?_
  simp only [List.forall_mem_cons]
  exact ⟨hfolder, bounded_of_next [] (by decide) (by simp), hlink, by simp⟩

/-- The folder is selected twice itself, and explicitly its calendar is; the calendar beside it stays
where it is. -/
theorem filter_explicit_sublist_attic :
    let c : Compiler := ⟨atticStore.hierarchy, .standard⟩
    let f : Filter := .or (["/a", "/b", "/a"].map Filter.inCollection)
    let g : Filter := .or (["/a/h", "/b", "/a/h"].map Filter.inCollection)
    c.filter (Filter.inCollection "/").text true "" .empty = (.filter g, .empty) ∧
      c.filter (Filter.inCollection "/").text false "" .empty = (.filter f, .empty) ∧
      atticStore.calendars f.leaves = ["/b"] ∧
      atticStore.calendars g.leaves = ["/a/h", "/b", "/a/h"] ∧
      (atticStore.calendars f.leaves).Sublist (atticStore.calendars g.leaves) := by
  intro c f g
  have hkept : atticStore.Kept := Built.kept ⟨_, rfl⟩
  have hacyclic := bounded_attic.not_cyclic
  have hg : c.filter (Filter.inCollection "/").text true "" .empty = (.filter g, .empty) :=
    (filter_of_asks hkept (by decide) (asks_text "/")).mpr
      ⟨rfl, ["/a/h", "/b", "/a/h"], ⟨_, endsAt_attic, hacyclic, by decide⟩, rfl⟩
  have hf : c.filter (Filter.inCollection "/").text false "" .empty = (.filter f, .empty) :=
    (filter_of_asks hkept (by decide) (asks_text "/")).mpr
      ⟨rfl, ["/a", "/b", "/a"], ⟨_, endsAt_attic, fun h => hacyclic h.explicit, by decide⟩, rfl⟩
  obtain ⟨k, hk, hsublist⟩ := filter_explicit_sublist atticStore ⟨_, rfl⟩ .standard "/" _ "" .empty
    .empty g (asks_text "/") hg
  have hsame : k = f := Outcome.filter.inj (congrArg Prod.fst ((hk "" .empty).symm.trans hf))
  rw [hsame] at hsublist
  exact ⟨hg, hf, by decide, by decide, hsublist⟩

end Compiler

end CalendarQuery

import CalendarQuery.Proofs.Hierarchy.Store
import CalendarQuery.Proofs.Selection.Leaves
import Mathlib.Logic.Relation

/-!
# Expansions of a store

Expanding a collection of a store goes through the graph whose edges lead from a folder to the
members that count and from an alias to its target. The paths that may no longer be entered are those
of collections from which the graph leads to the one being expanded. So an expansion fails if and
only if the graph leads to a cycle, however often it comes to the same collection by different ways,
and otherwise it selects the calendars and the folders without members that it meets, depth first.

* `Store.next`: the edges, with `Store.Cyclic` for a cycle that can be reached.
* `Store.depthFirst`: what is selected, in order.
* `Filter.any?_selecting`: groups of collections join without loss.
* `Selection.expand_false`: an expansion is one or the other.
-/

namespace CalendarQuery

namespace Filter

/-- The filter that selects collections; nothing selects none. -/
def selecting (paths : List String) : Option Filter := any? (paths.map inCollection)

theorem flatMap_parts_inCollection (op : LogicalOp) (paths : List String) :
    (paths.map inCollection).flatMap (parts op) = paths.map inCollection := by
  induction paths with
  | nil => rfl
  | cons path paths ih => rw [List.map_cons, List.flatMap_cons, ih]; rfl

theorem selecting_of_ne_nil {paths : List String} (h : paths ≠ []) :
    selecting paths = some (merged .or (paths.map inCollection)) :=
  combine_eq_merged .or (by simpa using h)

theorem merged_of_one_lt {op : LogicalOp} {fs : List Filter} (h : 1 < fs.length) :
    merged op fs = group op (fs.flatMap (parts op)) := by
  match fs, h with
  | _ :: _ :: _, _ => rfl

theorem merged_inCollection (path other : String) (paths : List String) :
    merged .or ((path :: other :: paths).map inCollection) =
      .or ((path :: other :: paths).map inCollection) := by
  rw [merged_of_one_lt (by simp), flatMap_parts_inCollection]
  rfl

theorem parts_of_selecting {paths : List String} {f : Filter} (h : selecting paths = some f) :
    parts .or f = paths.map inCollection := by
  by_cases hnil : paths = []
  · subst hnil
    cases h
  · rw [selecting_of_ne_nil hnil] at h
    cases h
    rw [parts_merged, flatMap_parts_inCollection]

theorem selecting_eq_none {paths : List String} : selecting paths = none ↔ paths = [] := by
  constructor
  · intro h
    by_contra hnil
    rw [selecting_of_ne_nil hnil] at h
    cases h
  · rintro rfl
    rfl

theorem leaves_of_selecting {paths : List String} {f : Filter} (h : selecting paths = some f) :
    f.leaves = paths := by
  by_cases hnil : paths = []
  · subst hnil
    cases h
  · rw [selecting_of_ne_nil hnil] at h
    cases h
    rw [leaves_merged_or, List.map_map, ← List.flatMap_def]
    exact List.flatMap_singleton' paths

theorem selecting_injective : Function.Injective selecting := by
  intro paths others h
  cases hpaths : selecting paths with
  | none => rw [selecting_eq_none.mp hpaths, selecting_eq_none.mp (h.symm.trans hpaths)]
  | some f => rw [← leaves_of_selecting hpaths, leaves_of_selecting (h.symm.trans hpaths)]

/-- A folder without members selects itself. -/
theorem selecting_orSelf (paths : List String) (path : String) :
    some ((selecting paths).getD (inCollection path)) =
      selecting (if paths.isEmpty then [path] else paths) := by
  by_cases hnil : paths = []
  · subst hnil
    rfl
  · rw [selecting_of_ne_nil hnil, Option.getD_some, if_neg (by simpa using hnil),
      selecting_of_ne_nil hnil]

theorem flatMap_parts_selecting (lists : List (List String)) :
    (lists.filterMap selecting).flatMap (parts .or) = lists.flatten.map inCollection := by
  induction lists with
  | nil => rfl
  | cons paths lists ih =>
    rw [List.flatten_cons, List.map_append, ← ih]
    cases h : selecting paths with
    | none =>
      rw [List.filterMap_cons_none h, selecting_eq_none.mp h]
      rfl
    | some f => rw [List.filterMap_cons_some h, List.flatMap_cons, parts_of_selecting h]

/-- Groups of collections join to one group of all of them, in order. -/
theorem any?_selecting (lists : List (List String)) :
    any? (lists.filterMap selecting) = selecting lists.flatten := by
  have hparts := flatMap_parts_selecting lists
  match hfs : lists.filterMap selecting with
  | [] =>
    rw [hfs] at hparts
    rw [selecting, ← hparts]
    rfl
  | [f] =>
    -- the only group that is not empty is all there is
    obtain ⟨paths, -, hpaths⟩ := List.mem_filterMap.mp (hfs ▸ List.mem_singleton_self f)
    rw [hfs, List.flatMap_singleton, parts_of_selecting hpaths] at hparts
    rw [selecting, ← hparts]
    exact hpaths.symm
  | f :: g :: fs =>
    have hpos : ∀ k ∈ f :: g :: fs, 0 < (parts .or k).length := by
      intro k hk
      obtain ⟨paths, -, hpaths⟩ := List.mem_filterMap.mp (hfs ▸ hk)
      have hne : paths ≠ [] := fun hnil => by
        subst hnil
        cases hpaths
      rw [parts_of_selecting hpaths, List.length_map]
      exact List.length_pos_iff.mpr hne
    have hmany : 1 < (lists.flatten.map inCollection).length := by
      have hf := hpos f (by simp)
      have hg := hpos g (by simp)
      rw [← hparts, hfs, List.flatMap_cons, List.flatMap_cons, List.length_append,
        List.length_append]
      omega
    have hflat : lists.flatten ≠ [] := by
      intro hnil
      simp [hnil] at hmany
    calc any? (f :: g :: fs)
        = some (merged .or (f :: g :: fs)) := combine_eq_merged .or (List.cons_ne_nil _ _)
      _ = some (group .or (lists.flatten.map inCollection)) := by
        rw [merged_of_one_lt (by simp), ← hfs, hparts]
      _ = some (merged .or (lists.flatten.map inCollection)) := by
        rw [merged_of_one_lt hmany, flatMap_parts_inCollection]
      _ = selecting lists.flatten := (selecting_of_ne_nil hflat).symm

end Filter

namespace Store

open Relation

/-! ## The graph -/

/-- The collections that an expansion enters from a collection: the members of a folder that count,
and the target of an alias. -/
def next (s : Store) (explicit : Bool) (c : Collection) : List Collection :=
  match c.kind with
  | .calendar => []
  | .folder => (s.below c.path).filter fun d => d.display || explicit
  | .link => (c.target.bind s.find?).toList

/-- There is an edge from one to the other. -/
def Enters (s : Store) (explicit : Bool) (c d : Collection) : Prop := d ∈ s.next explicit c

/-- The graph leads from the collection to a cycle. -/
def Cyclic (s : Store) (explicit : Bool) (c : Collection) : Prop :=
  ∃ d, ReflTransGen (s.Enters explicit) c d ∧ TransGen (s.Enters explicit) d d

/-- The graph leads from the collection to an end, whatever way is taken. -/
def Bounded (s : Store) (explicit : Bool) (c : Collection) : Prop :=
  Acc (fun d c => s.Enters explicit c d) c

/-- The paths of the calendars and of the folders without members that the graph leads to from a
collection, depth first, as far as `depth` edges go. -/
def depthFirst (s : Store) (explicit : Bool) : (depth : Nat) → Collection → List String
  | 0, _ => []
  | depth + 1, c =>
    let inner := (s.next explicit c).flatMap (s.depthFirst explicit depth)
    match c.kind with
    | .calendar => [c.path]
    | .folder => if inner.isEmpty then [c.path] else inner
    | .link => inner

variable {s : Store} {explicit : Bool} {c d : Collection}

/-- Something other than an alias selects something. -/
theorem depthFirst_ne_nil {depth : ℕ} (hdepth : 0 < depth) (hc : c.isAlias = false) :
    s.depthFirst explicit depth c ≠ [] := by
  obtain ⟨depth, rfl⟩ := Nat.exists_eq_add_of_lt hdepth
  rw [depthFirst]
  cases hk : c.kind with
  | calendar => simp
  | folder =>
    simp only
    split
    · simp
    · rename_i hinner
      simpa using hinner
  | link => simp [Collection.isAlias, hk] at hc

theorem Cyclic.of_enters (h : s.Enters explicit c d) (hd : s.Cyclic explicit d) :
    s.Cyclic explicit c := by
  obtain ⟨e, hde, hcycle⟩ := hd
  exact ⟨e, hde.head h, hcycle⟩

theorem bounded_of_next (ds : List Collection) (hnext : s.next explicit c = ds)
    (hds : ∀ d ∈ ds, s.Bounded explicit d) : s.Bounded explicit c :=
  Acc.intro c fun d hd => hds d (hnext ▸ hd)

/-- What has an end leads to no cycle. -/
theorem Bounded.not_cyclic (h : s.Bounded explicit c) : ¬s.Cyclic explicit c := by
  rintro ⟨d, hcd, hcycle⟩
  have hd : s.Bounded explicit d := by
    clear hcycle
    induction hcd with
    | refl => exact h
    | tail _ hstep ih => exact Acc.inv ih hstep
  have hacc : Acc (TransGen fun d c => s.Enters explicit c d) d := Acc.transGen hd
  have hloop : TransGen (fun d c => s.Enters explicit c d) d d := transGen_swap.mpr hcycle
  clear hcycle hcd hd
  induction hacc with
  | intro d _ ih => exact ih d hloop hloop

theorem ordered_next (hs : s.Kept) (explicit : Bool) (c : Collection) :
    Ordered (s.next explicit c) := by
  unfold next
  split
  · exact List.Pairwise.nil
  · exact (hs.ordered.filter _).filter _
  · cases c.target.bind s.find? <;> simp [Ordered]

/-- What is entered is an answer as it stands. -/
theorem Enters.find?_self (hs : s.Kept) (h : s.Enters explicit c d) : s.find? d.path = some d := by
  unfold Enters next at h
  split at h
  · cases h
  · exact hs.find?_self (List.mem_of_mem_filter (List.mem_of_mem_filter h))
  · obtain ⟨path, -, hd⟩ := Option.bind_eq_some_iff.mp (Option.mem_toList.mp h)
    exact hs.find?_of_find? hd

theorem Enters.knows (hs : s.Kept) (h : s.Enters explicit c d) : s.Knows d :=
  ⟨d.origin, h.find?_self hs⟩

/-- What is known of one path differs at most in the alias by way of which it is reached. -/
theorem Knows.eq_origin (hc : s.Knows c) (hd : s.Knows d) (hpath : c.path = d.path) :
    ∃ origin, c = { d with origin := origin } := by
  obtain ⟨o, hc⟩ := hc
  obtain ⟨o', hd⟩ := hd
  have heq : { c with origin := o } = { d with origin := o' } :=
    Option.some.inj (hc.symm.trans (hpath ▸ hd))
  refine ⟨c.origin, ?_⟩
  calc c = { ({ c with origin := o } : Collection) with origin := c.origin } := rfl
    _ = { ({ d with origin := o' } : Collection) with origin := c.origin } := by rw [heq]

theorem depthFirst_origin (s : Store) (explicit : Bool) (depth : ℕ) (c : Collection)
    (origin : Option String) : s.depthFirst explicit depth { c with origin := origin } =
      s.depthFirst explicit depth c := by
  cases depth <;> rfl

theorem cyclic_iff : s.Cyclic explicit c ↔ ∃ d, s.Enters explicit c d ∧ s.Cyclic explicit d := by
  constructor
  · rintro ⟨e, hce, hcycle⟩
    rcases hce.cases_head with rfl | ⟨d, hd, hde⟩
    · obtain ⟨d, hd, hdc⟩ := TransGen.head'_iff.mp hcycle
      exact ⟨d, hd, c, hdc, hcycle⟩
    · exact ⟨d, hd, e, hde, hcycle⟩
  · rintro ⟨d, hd, hcycle⟩
    exact hcycle.of_enters hd

theorem cyclic_origin (s : Store) (explicit : Bool) (c : Collection) (origin : Option String) :
    s.Cyclic explicit { c with origin := origin } ↔ s.Cyclic explicit c := by
  rw [cyclic_iff, cyclic_iff]
  rfl

end Store

namespace Selection

open Store Relation

variable {store : Store} {s : Selection}

/-! ## The expansion -/

/-- What expanding a collection comes to: it selects what lies ahead, or it finds a cycle. -/
def Settled (store : Store) (explicit : Bool) (steps : Nat) (c : Collection)
    (expansion : Compilation (Option Filter)) : Prop :=
  (store.Bounded explicit c ∧ ∀ depth, steps ≤ depth →
      expansion = pure (Filter.selecting (store.depthFirst explicit depth c))) ∨
    (store.Cyclic explicit c ∧ ∃ path, expansion = throw (.aliasCycle path))

/-- The same for the collections that are entered from one. -/
theorem expandEach_false {fresh : List String} {explicit : Bool} {steps : Nat}
    {cs : List Collection}
    (h : ∀ c ∈ cs, Settled store explicit steps c (s.expand false fresh c)) :
    ((∀ c ∈ cs, store.Bounded explicit c) ∧ ∀ depth, steps ≤ depth →
      s.expandEach false fresh cs =
        pure ((cs.map (store.depthFirst explicit depth)).filterMap Filter.selecting)) ∨
    ((∃ c ∈ cs, store.Cyclic explicit c) ∧
      ∃ path, s.expandEach false fresh cs = throw (.aliasCycle path)) := by
  induction cs with
  | nil => exact .inl ⟨by simp, fun depth _ => by rw [expandEach]; rfl⟩
  | cons c cs ih =>
    rw [expandEach_cons]
    obtain ⟨hc, hfirst⟩ | ⟨hc, path, hfirst⟩ := h c List.mem_cons_self
    · obtain ⟨hcs, hothers⟩ | ⟨⟨d, hd, hcycle⟩, path, hothers⟩ :=
        ih fun d hd => h d (List.mem_cons_of_mem c hd)
      · refine .inl ⟨List.forall_mem_cons.mpr ⟨hc, hcs⟩, fun depth hdepth => ?_⟩
        rw [hfirst depth hdepth, hothers depth hdepth, pure_bind, pure_bind, List.map_cons,
          List.filterMap_cons]
        cases Filter.selecting (store.depthFirst explicit depth c) <;> rfl
      · refine .inr ⟨⟨d, List.mem_cons_of_mem c hd, hcycle⟩, path, ?_⟩
        rw [hfirst steps le_rfl, hothers, pure_bind]
        rfl
    · refine .inr ⟨⟨c, List.mem_cons_self, hc⟩, path, ?_⟩
      rw [hfirst]
      rfl

theorem expand_link_false {fresh : List String} {c : Collection} (hs : s.hierarchy = store.hierarchy)
    (hm : c.path ∈ fresh) (hk : c.kind = .link) :
    s.expand false fresh c = match c.target.bind store.find? with
      | none => pure none
      | some d => s.expand false (Hierarchy.without fresh c.path) d := by
  rw [expand_link hm hk, own_false, pure_bind, hs]
  cases c.target with
  | none => rfl
  | some target =>
    change (Compilation.ofLookup (.ok (store.find? target)) >>= _) = _
    rw [Option.bind_some]
    cases store.find? target with
    | none => rfl
    | some d =>
      have hid : narrowed c.path none = id := rfl
      simp [Compilation.ofLookup, hid]

/-! One step of an expansion, where what is entered comes to one or the other. -/

section Steps

variable {fresh : List String} {c : Collection} {steps more : ℕ}

theorem settled_calendar (hm : c.path ∈ fresh) (hk : c.kind = .calendar) (hsteps : 0 < steps) :
    Settled store s.explicit steps c (s.expand false fresh c) := by
  refine .inl ⟨Acc.intro c fun d hd => ?_, fun depth hle => ?_⟩
  · rw [Enters, next, hk] at hd
    cases hd
  · obtain ⟨depth, rfl⟩ := Nat.exists_eq_add_of_lt (hsteps.trans_le hle)
    rw [expand_calendar hm hk, depthFirst]
    simp only [hk]
    rfl

theorem settled_folder (hs : s.hierarchy = store.hierarchy) (hm : c.path ∈ fresh)
    (hk : c.kind = .folder) (hsteps : more < steps)
    (hnext : ∀ d, store.Enters s.explicit c d → Settled store s.explicit more d
      (s.expand false (Hierarchy.without fresh c.path) d)) :
    Settled store s.explicit steps c (s.expand false fresh c) := by
  have hedges : s.visible (store.below c.path) = store.next s.explicit c := by
    rw [next, hk]
    rfl
  have hexpand : s.expand false fresh c = (do
      let members ← s.expandEach false (Hierarchy.without fresh c.path) (store.next s.explicit c)
      return some ((Filter.any? members).getD (.inCollection c.path))) := by
    rw [expand_folder hm hk, hs, ← hedges]
    rfl
  rw [hexpand]
  obtain ⟨hbounded, hmembers⟩ | ⟨⟨d, hd, hcycle⟩, path, hmembers⟩ := expandEach_false hnext
  · refine .inl ⟨Acc.intro c hbounded, fun depth hle => ?_⟩
    obtain ⟨k, rfl⟩ := Nat.exists_eq_add_of_lt (hsteps.trans_le hle)
    rw [hmembers (more + k) (Nat.le_add_right _ _), pure_bind, Filter.any?_selecting, depthFirst]
    simp only [hk, List.flatMap_def]
    rw [Filter.selecting_orSelf]
  · exact .inr ⟨hcycle.of_enters hd, path, by rw [hmembers]; rfl⟩

theorem settled_link (hs : s.hierarchy = store.hierarchy) (hm : c.path ∈ fresh)
    (hk : c.kind = .link) (hsteps : more < steps)
    (hnext : ∀ d, store.Enters s.explicit c d → Settled store s.explicit more d
      (s.expand false (Hierarchy.without fresh c.path) d)) :
    Settled store s.explicit steps c (s.expand false fresh c) := by
  have hedges : ∀ d, store.Enters s.explicit c d ↔ c.target.bind store.find? = some d := by
    intro d
    rw [Enters, next, hk]
    exact Option.mem_toList
  have hinner : ∀ depth, store.depthFirst s.explicit (depth + 1) c =
      (c.target.bind store.find?).toList.flatMap (store.depthFirst s.explicit depth) := by
    intro depth
    rw [depthFirst, next]
    simp only [hk]
  rw [expand_link_false hs hm hk]
  cases htarget : c.target.bind store.find? with
  | none =>
    rw [htarget] at hinner
    refine .inl ⟨Acc.intro c fun d hd => ?_, fun depth hle => ?_⟩
    · cases htarget.symm.trans ((hedges d).mp hd)
    · obtain ⟨k, rfl⟩ := Nat.exists_eq_add_of_lt (hsteps.trans_le hle)
      rw [hinner]
      rfl
  | some d =>
    rw [htarget] at hinner
    have hd := (hedges d).mpr htarget
    obtain ⟨hbounded, hexpand⟩ | ⟨hcycle, path, hexpand⟩ := hnext d hd
    · refine .inl ⟨Acc.intro c fun e he => ?_, fun depth hle => ?_⟩
      · obtain rfl := Option.some.inj (htarget.symm.trans ((hedges e).mp he))
        exact hbounded
      · obtain ⟨k, rfl⟩ := Nat.exists_eq_add_of_lt (hsteps.trans_le hle)
        rw [hinner, Option.toList_some, List.flatMap_singleton]
        exact hexpand (more + k) (Nat.le_add_right _ _)
    · exact .inr ⟨hcycle.of_enters hd, path, hexpand⟩

end Steps

/-- Expanding a collection selects what lies ahead, or finds a cycle. The collections whose paths
may no longer be entered lead to the one being expanded, and the induction is on the paths that may
be. -/
theorem expand_false (hstore : store.Kept) (hs : s.hierarchy = store.hierarchy)
    {fresh : List String} {c : Collection} (hc : store.Knows c)
    (hfresh : ∀ d, store.Knows d → d.path ∉ fresh → TransGen (store.Enters s.explicit) d c) :
    Settled store s.explicit fresh.length c (s.expand false fresh c) := by
  induction hn : fresh.length using Nat.strongRecOn generalizing fresh c with
  | ind n ih =>
    subst hn
    by_cases hm : c.path ∈ fresh
    swap
    · exact .inr ⟨⟨c, .refl, hfresh c hc hm⟩, c.path, expand_cycle hm⟩
    have hlt := Hierarchy.length_without_lt hm
    have hnext : ∀ d, store.Enters s.explicit c d →
        Settled store s.explicit (Hierarchy.without fresh c.path).length d
          (s.expand false (Hierarchy.without fresh c.path) d) := by
      intro d hd
      refine ih _ hlt (hd.knows hstore) (fun e he hstale => ?_) rfl
      by_cases hmem : e.path ∈ fresh
      -- the path of the collection itself is the only one that is no longer fresh
      · have hpath : e.path = c.path := by
          by_contra hne
          exact hstale (Hierarchy.mem_without.mpr ⟨hmem, hne⟩)
        obtain ⟨origin, rfl⟩ := he.eq_origin hc hpath
        exact .single hd
      · exact (hfresh e he hmem).tail hd
    cases hk : c.kind with
    | calendar => exact settled_calendar hm hk (Nat.zero_lt_of_lt hlt)
    | folder => exact settled_folder hs hm hk hlt hnext
    | link => exact settled_link hs hm hk hlt hnext

/-- From the start nothing has been entered. -/
theorem expand_paths (hstore : store.Kept) (hs : s.hierarchy = store.hierarchy) {c : Collection}
    (hc : store.Knows c) :
    Settled store s.explicit store.paths.length c (s.expand false store.paths c) := by
  refine expand_false hstore hs hc fun d hd hm => absurd ?_ hm
  obtain ⟨origin, hfind⟩ := hd
  have hmem := find?_mem hfind
  exact hmem

end Selection

/-! ## What lies ahead -/

namespace Store

open Selection

variable {store : Store}

theorem Kept.settled (hstore : store.Kept) (explicit : Bool) {c : Collection}
    (hc : store.Knows c) : ∃ expansion, Settled store explicit store.paths.length c expansion :=
  let s : Selection := ⟨store.hierarchy, explicit, [], fun _ _ _ => throw .invalidExpression⟩
  ⟨_, expand_paths (s := s) hstore rfl hc⟩

/-- Where there is no cycle there is an end. -/
theorem Kept.bounded (hstore : store.Kept) {explicit : Bool} {c : Collection}
    (hc : store.Knows c) (hacyclic : ¬store.Cyclic explicit c) : store.Bounded explicit c := by
  obtain ⟨_, ⟨hbounded, -⟩ | ⟨hcycle, -⟩⟩ := hstore.settled explicit hc
  · exact hbounded
  · exact absurd hcycle hacyclic

/-- As many edges as there are paths suffice for what lies ahead where there is no cycle. -/
theorem depthFirst_eq (hstore : store.Kept) {explicit : Bool} {c : Collection}
    (hc : store.Knows c) (hbounded : store.Bounded explicit c) {depth : ℕ}
    (hdepth : store.paths.length ≤ depth) :
    store.depthFirst explicit depth c = store.depthFirst explicit store.paths.length c := by
  obtain ⟨_, ⟨-, hexpand⟩ | ⟨hcycle, -⟩⟩ := hstore.settled explicit hc
  · have heq := (hexpand depth hdepth).symm.trans (hexpand _ le_rfl)
    have houtcome := congrArg (fun e => (e.outcome .empty).1) heq
    exact Filter.selecting_injective (Except.ok.inj houtcome)
  · exact absurd hcycle hbounded.not_cyclic

/-- What is stored under the path is no alias, and it selects itself alone. -/
def Alone (s : Store) (explicit : Bool) (path : String) : Prop :=
  ∃ d, s.Knows d ∧ d.path = path ∧ d.isAlias = false ∧ s.Bounded explicit d ∧
    s.depthFirst explicit s.paths.length d = [path]

/-- What a collection selects would be selected alone as well. -/
theorem alone_of_mem_depthFirst (hstore : store.Kept) {explicit : Bool} {c : Collection}
    (hc : store.Knows c) (hbounded : store.Bounded explicit c) {path : String}
    (hpath : path ∈ store.depthFirst explicit store.paths.length c) :
    store.Alone explicit path := by
  induction hbounded with
  | intro c hnext ih =>
    have hbounded : store.Bounded explicit c := Acc.intro c hnext
    have hstep := depthFirst_eq hstore hc hbounded (Nat.le_succ _)
    have hinner : path ∈ (store.next explicit c).flatMap
        (store.depthFirst explicit store.paths.length) → store.Alone explicit path := by
      intro hm
      obtain ⟨d, hd, hm⟩ := List.mem_flatMap.mp hm
      exact ih d hd (Enters.knows hstore hd) hm
    have hself : store.depthFirst explicit store.paths.length c = [c.path] → c.isAlias = false →
        store.Alone explicit path := by
      intro hc' halias
      obtain rfl : path = c.path := by simpa [hc'] using hpath
      exact ⟨c, hc, rfl, halias, hbounded, hc'⟩
    rw [depthFirst] at hstep
    cases hk : c.kind with
    | calendar =>
      simp only [hk] at hstep
      exact hself hstep.symm (by simp [Collection.isAlias, hk])
    | folder =>
      simp only [hk] at hstep
      split at hstep
      · exact hself hstep.symm (by simp [Collection.isAlias, hk])
      · exact hinner (hstep ▸ hpath)
    | link =>
      simp only [hk] at hstep
      exact hinner (hstep ▸ hpath)

end Store

end CalendarQuery

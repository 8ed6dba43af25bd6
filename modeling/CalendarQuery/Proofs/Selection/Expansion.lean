import CalendarQuery.Proofs.Compilation
import CalendarQuery.Proofs.Filter.Normal
import CalendarQuery.Selection

/-!
# What an expansion passes through

A successful expansion is recorded by a tree: the collections that were entered, and the filters
that were imposed on the way. The filter that the expansion gives has one leaf for each route
through the tree, in order, and that leaf stands under exactly the filters imposed along its route.

* `Filter.guarded`: the collection leaves of a filter, with the filters that each is joined to.
* `Expansion`: the tree; `Expansion.Valid` says that the hierarchy has it.
* `Selection.expand_sound`: the tree of an expansion.
-/

namespace CalendarQuery

/-! ## The leaves of a filter -/

namespace Filter

mutual

/-- The collections that a filter selects, in order, each with the filters it is joined to. The last
child of a conjunction selects the collections, and the others are imposed on them. -/
def guarded : Filter → List (String × List Filter)
  | .and _ children => guardedLast children
  | .or children => guardedEach children
  | .compare path _ (.text value) _ _ _ _ =>
    if path = .single .collection then [(value, [])] else []
  | _ => []

/-- The same for the children of a conjunction. -/
def guardedLast : List Filter → List (String × List Filter)
  | [] => []
  | [f] => guarded f
  | guard :: f :: fs =>
    (guardedLast (f :: fs)).map fun (path, guards) => (path, guard :: guards)

/-- The same for the children of a disjunction. -/
def guardedEach : List Filter → List (String × List Filter)
  | [] => []
  | f :: fs => guarded f ++ guardedEach fs

end

/-- A leaf under further filters. -/
def under (guards : List Filter) (leaf : String × List Filter) : String × List Filter :=
  (leaf.1, guards ++ leaf.2)

theorem under_nil : under [] = id := rfl

theorem guardedEach_eq_flatMap (fs : List Filter) : guardedEach fs = fs.flatMap guarded := by
  induction fs with
  | nil => rfl
  | cons f fs ih => rw [guardedEach, ih, List.flatMap_cons]

/-- The last of several filters in a conjunction stands under all the others. -/
theorem guarded_and (name : Option String) (guards : List Filter) (f : Filter) :
    (Filter.and name (guards ++ [f])).guarded = f.guarded.map (under guards) := by
  rw [guarded]
  induction guards with
  | nil => simp [guardedLast, under_nil]
  | cons g gs ih =>
    obtain ⟨h, hs, htail⟩ : ∃ h hs, gs ++ [f] = h :: hs :=
      List.exists_cons_of_ne_nil (by simp)
    rw [List.cons_append, htail, guardedLast, ← htail, ih, List.map_map]
    rfl

theorem guarded_parts_or (f : Filter) : (parts .or f).flatMap guarded = f.guarded := by
  match f with
  | .or children => rw [parts, if_pos rfl, guarded, guardedEach_eq_flatMap]
  | .and none children => simp [parts]
  | .and (some _) _ | .compare .. | .presence .. | .entity .. | .timeRange .. | .view .. =>
    simp [parts]

/-- A disjunction selects what its parts select. -/
theorem guarded_merged_or (fs : List Filter) : (merged .or fs).guarded = fs.flatMap guarded := by
  match fs with
  | [] => rfl
  | [f] => simp [merged]
  | f :: g :: fs =>
    rw [merged, group, guarded, guardedEach_eq_flatMap, List.flatMap_assoc]
    · simp only [guarded_parts_or]
    · simp

end Filter

/-! ## Trees of collections -/

/-- A collection that was passed through, and the filter that was imposed there, if any. -/
structure Passage where
  collection : Collection
  imposed : Option Filter

/-- The collections that an expansion enters. -/
inductive Expansion
  | calendar (c : Collection)
  | folder (c : Collection) (members : List Expansion)
  /-- An alias, with the filter that was imposed for it. -/
  | link (c : Collection) (own : Option Filter) (target : Expansion)
  /-- An alias that leads nowhere. -/
  | dangling (c : Collection)

namespace Expansion

/-- The collection that is expanded. -/
def root : Expansion → Collection
  | .calendar c | .folder c _ | .link c _ _ | .dangling c => c

/-- The routes, or the empty route if there is none. -/
def orSelf : List (List Passage) → List (List Passage)
  | [] => [[]]
  | routes => routes

mutual

/-- The routes from the collection that is expanded to those that are selected, in order. A folder
in which nothing is selected stands for itself. -/
def routes : Expansion → List (List Passage)
  | .calendar c => [[⟨c, none⟩]]
  | .folder c members => (orSelf (routesEach members)).map (⟨c, none⟩ :: ·)
  | .link c own target => (routes target).map (⟨c, own⟩ :: ·)
  | .dangling _ => []

/-- The routes of several expansions. -/
def routesEach : List Expansion → List (List Passage)
  | [] => []
  | t :: ts => routes t ++ routesEach ts

end

/-- What a route selects, and the filters imposed along it. -/
def selected (route : List Passage) : String × List Filter :=
  ((route.getLast?.map fun p => p.collection.path).getD "", route.filterMap Passage.imposed)

theorem routesEach_eq_flatMap (ts : List Expansion) : routesEach ts = ts.flatMap routes := by
  induction ts with
  | nil => rfl
  | cons t ts ih => rw [routesEach, ih, List.flatMap_cons]

/-- A route goes through one collection at least. -/
theorem exists_cons_of_mem_routes {t : Expansion} {route : List Passage} (h : route ∈ t.routes) :
    ∃ p rest, route = p :: rest ∧ p.collection = t.root := by
  cases t with
  | calendar c =>
    obtain rfl := List.mem_singleton.mp h
    exact ⟨_, _, rfl, rfl⟩
  | folder c members =>
    obtain ⟨rest, -, rfl⟩ := List.mem_map.mp h
    exact ⟨_, rest, rfl, rfl⟩
  | link c own target =>
    obtain ⟨rest, -, rfl⟩ := List.mem_map.mp h
    exact ⟨_, rest, rfl, rfl⟩
  | dangling c => cases h

theorem selected_cons {p : Passage} {route : List Passage} (h : route ≠ []) :
    selected (p :: route) = Filter.under p.imposed.toList (selected route) := by
  obtain ⟨q, rest, rfl⟩ := List.exists_cons_of_ne_nil h
  cases hp : p.imposed <;> simp [selected, Filter.under, hp]

theorem selected_append {before route : List Passage} (h : route ≠ []) :
    selected (before ++ route) =
      Filter.under (before.filterMap Passage.imposed) (selected route) := by
  simp [selected, Filter.under, List.getLast?_append, List.getLast?_eq_some_getLast h]

end Expansion

/-! ## The tree of an expansion -/

namespace Selection

/-- What is imposed at a collection on behalf of a path: the filter that the expression attached to
the collection compiles to, if there is one and filters count. -/
def Imposes (s : Selection) (narrow : Bool) (vpath : String) (p : Passage) : Prop :=
  match p.collection.filter, narrow with
  | some expression, true => ∃ g m m', p.imposed = some g ∧
      (s.attached vpath p.collection.path expression).outcome m = (.ok g, m')
  | _, _ => p.imposed = none

end Selection

namespace Expansion

mutual

/-- The hierarchy has the tree: a folder has the children that an expansion enters as its members,
and an alias has its target. -/
def Valid (s : Selection) (narrow : Bool) : Expansion → Prop
  | .calendar c => c.kind = .calendar
  | .folder c members => c.kind = .folder ∧
      (∃ children, s.hierarchy.children c.path = .ok children ∧
        s.visible children = members.map root) ∧ ValidEach s narrow members
  | .link c own target => c.kind = .link ∧ s.Imposes narrow c.path ⟨c, own⟩ ∧
      (∃ path, c.target = some path ∧ s.hierarchy.collection path = .ok (some target.root)) ∧
      Valid s narrow target
  | .dangling c => c.kind = .link ∧ ∀ path ∈ c.target, s.hierarchy.collection path = .ok none

/-- Several such trees. -/
def ValidEach (s : Selection) (narrow : Bool) : List Expansion → Prop
  | [] => True
  | t :: ts => Valid s narrow t ∧ ValidEach s narrow ts

end

mutual

/-- The paths of the tree may be entered, none of them inside itself. -/
def Fresh : (fresh : List String) → Expansion → Prop
  | fresh, .calendar c => c.path ∈ fresh
  | fresh, .folder c members => c.path ∈ fresh ∧ FreshEach (Hierarchy.without fresh c.path) members
  | fresh, .link c _ target => c.path ∈ fresh ∧ Fresh (Hierarchy.without fresh c.path) target
  | fresh, .dangling c => c.path ∈ fresh

/-- Several such trees. -/
def FreshEach : (fresh : List String) → List Expansion → Prop
  | _, [] => True
  | fresh, t :: ts => Fresh fresh t ∧ FreshEach fresh ts

end

end Expansion

namespace Selection

open Compilation Expansion

variable {s : Selection} {narrow : Bool} {fresh : List String} {c : Collection}

theorem own_none (h : c.filter = none) (vpath : String) : s.own narrow vpath c = pure none := by
  unfold Selection.own
  rw [h]

theorem own_false (vpath : String) (c : Collection) : s.own false vpath c = pure none := by
  unfold Selection.own
  split
  · contradiction
  · rfl

theorem own_some {expression : String} (h : c.filter = some expression) (vpath : String) :
    s.own true vpath c = some <$> s.attached vpath c.path expression := by
  unfold Selection.own
  rw [h]

theorem expand_cycle (h : c.path ∉ fresh) :
    s.expand narrow fresh c = throw (.aliasCycle c.path) := by
  rw [expand, dif_neg h]

theorem expand_calendar (h : c.path ∈ fresh) (hk : c.kind = .calendar) :
    s.expand narrow fresh c = return some (.inCollection c.path) := by
  rw [expand, dif_pos h]
  simp only [hk]

theorem expand_folder (h : c.path ∈ fresh) (hk : c.kind = .folder) :
    s.expand narrow fresh c = (do
      let children ← Compilation.ofLookup (s.hierarchy.children c.path)
      let members ← s.expandEach narrow (Hierarchy.without fresh c.path) (s.visible children)
      return some ((Filter.any? members).getD (.inCollection c.path))) := by
  rw [expand, dif_pos h]
  simp only [hk]

theorem expand_link (h : c.path ∈ fresh) (hk : c.kind = .link) :
    s.expand narrow fresh c = (do
      let own ← s.own narrow c.path c
      match c.target with
      | none => return none
      | some target =>
        match ← Compilation.ofLookup (s.hierarchy.collection target) with
        | none => return none
        | some d =>
          let inner ← s.expand narrow (Hierarchy.without fresh c.path) d
          return inner.map (narrowed c.path own)) := by
  rw [expand, dif_pos h]
  split
  · rename_i hc; cases hk.symm.trans hc
  · rename_i hc; cases hk.symm.trans hc
  · rfl

theorem expandEach_cons (cs : List Collection) : s.expandEach narrow fresh (c :: cs) = (do
    let first ← s.expand narrow fresh c
    let others ← s.expandEach narrow fresh cs
    return first.toList ++ others) := by
  rw [expandEach]

/-- The members of a folder are expanded one after the other. -/
theorem expandEach_eq_mapM (fresh : List String) (cs : List Collection) :
    s.expandEach narrow fresh cs = (·.filterMap id) <$> cs.mapM (s.expand narrow fresh) := by
  induction cs with
  | nil =>
    rw [expandEach]
    rfl
  | cons c cs ih =>
    rw [expandEach_cons, ih, List.mapM_cons]
    simp only [map_eq_pure_bind, bind_assoc, pure_bind]
    refine bind_congr fun first => bind_congr fun others => ?_
    cases first <;> rfl

theorem ofLookup_eq_ok {α : Type} {r : Except LookupError α} {m m' : Memos} {a : α} :
    (Compilation.ofLookup r).outcome m = (.ok a, m') ↔ r = .ok a ∧ m = m' := by
  cases r <;> simp [Compilation.ofLookup]

/-- A folder expands to what its members expand to. -/
theorem expand_folder_eq_ok (hm : c.path ∈ fresh) (hk : c.kind = .folder) {m m' : Memos}
    {o : Option Filter} : (s.expand narrow fresh c).outcome m = (.ok o, m') ↔
      ∃ children fs, s.hierarchy.children c.path = .ok children ∧
        (s.expandEach narrow (Hierarchy.without fresh c.path) (s.visible children)).outcome m =
          (.ok fs, m') ∧ o = some ((Filter.any? fs).getD (.inCollection c.path)) := by
  rw [expand_folder hm hk]
  constructor
  · intro h
    obtain ⟨children, m₁, h₁, h⟩ := bind_eq_ok.mp h
    obtain ⟨fs, m₂, h₂, h₃⟩ := bind_eq_ok.mp h
    obtain ⟨hchildren, rfl⟩ := ofLookup_eq_ok.mp h₁
    obtain ⟨rfl, rfl⟩ := Compilation.pure_eq_ok.mp h₃
    exact ⟨children, fs, hchildren, h₂, rfl⟩
  · rintro ⟨children, fs, hchildren, hfs, rfl⟩
    rw [outcome_bind_of_ok (ofLookup_eq_ok.mpr ⟨hchildren, rfl⟩), outcome_bind_of_ok hfs]
    rfl

/-- An alias leads nowhere, or expands to what its target expands to. -/
theorem expand_link_eq_ok (hm : c.path ∈ fresh) (hk : c.kind = .link) {m m' : Memos}
    {o : Option Filter} : (s.expand narrow fresh c).outcome m = (.ok o, m') ↔
      ∃ own m₁, (s.own narrow c.path c).outcome m = (.ok own, m₁) ∧
        ((o = none ∧ m₁ = m' ∧ ∀ path ∈ c.target, s.hierarchy.collection path = .ok none) ∨
          ∃ path d inner, c.target = some path ∧ s.hierarchy.collection path = .ok (some d) ∧
            (s.expand narrow (Hierarchy.without fresh c.path) d).outcome m₁ = (.ok inner, m') ∧
            o = inner.map (narrowed c.path own)) := by
  rw [expand_link hm hk, bind_eq_ok]
  refine exists_congr fun own => exists_congr fun m₁ => and_congr_right fun _ => ?_
  cases htarget : c.target with
  | none =>
    simp only [Compilation.pure_eq_ok]
    constructor
    · rintro ⟨rfl, rfl⟩
      exact .inl ⟨rfl, rfl, by simp⟩
    · rintro (⟨rfl, rfl, -⟩ | ⟨path, d, inner, h, -⟩)
      · exact ⟨rfl, rfl⟩
      · cases h
  | some path =>
    simp only [Option.mem_some_iff]
    cases hd : s.hierarchy.collection path with
    | error cause =>
      constructor
      · intro h; cases h
      · rintro (⟨-, -, h⟩ | ⟨path', d, inner, h, hd', -⟩)
        · cases hd.symm.trans (h path rfl)
        · cases h; cases hd.symm.trans hd'
    | ok found =>
      rw [outcome_bind_of_ok (ofLookup_eq_ok.mpr ⟨rfl, rfl⟩)]
      cases found with
      | none =>
        simp only [Compilation.pure_eq_ok]
        constructor
        · rintro ⟨rfl, rfl⟩
          exact .inl ⟨rfl, rfl, fun path' h => h ▸ hd⟩
        · rintro (⟨rfl, rfl, -⟩ | ⟨path', d, inner, h, hd', -⟩)
          · exact ⟨rfl, rfl⟩
          · cases h; cases hd.symm.trans hd'
      | some d =>
        simp only [bind_eq_ok, Compilation.pure_eq_ok]
        constructor
        · rintro ⟨inner, m₂, h, rfl, rfl⟩
          exact .inr ⟨path, d, inner, rfl, hd, h, rfl⟩
        · rintro (⟨-, -, h⟩ | ⟨path', d', inner, h, hd', hinner, rfl⟩)
          · cases hd.symm.trans (h path rfl)
          · cases h
            cases hd.symm.trans hd'
            exact ⟨inner, m', hinner, rfl, rfl⟩

theorem imposes_of_own {vpath : String} {own : Option Filter} {m m' : Memos}
    (h : (s.own narrow vpath c).outcome m = (.ok own, m')) : s.Imposes narrow vpath ⟨c, own⟩ := by
  unfold Imposes
  cases hc : c.filter with
  | none =>
    rw [own_none hc] at h
    exact (Compilation.pure_eq_ok.mp h).1.symm
  | some expression =>
    cases narrow with
    | false =>
      rw [own_false] at h
      exact (Compilation.pure_eq_ok.mp h).1.symm
    | true =>
      rw [own_some hc] at h
      obtain ⟨g, hg, rfl⟩ := map_eq_ok.mp h
      exact ⟨g, m, m', rfl, hg⟩

/-- What an expansion gives is what a tree of the hierarchy says. -/
def ExpandSound (s : Selection) (narrow : Bool) (fresh : List String) : Prop :=
  ∀ ⦃c : Collection⦄ ⦃m m' : Memos⦄ ⦃o : Option Filter⦄,
    (s.expand narrow fresh c).outcome m = (.ok o, m') →
    ∃ t : Expansion, t.root = c ∧ t.Valid s narrow ∧ t.Fresh fresh ∧
      (o = none ↔ t.routes = []) ∧ o.toList.flatMap Filter.guarded = t.routes.map selected

theorem expandEach_sound (hexpand : s.ExpandSound narrow fresh) {cs : List Collection}
    {m m' : Memos} {fs : List Filter}
    (h : (s.expandEach narrow fresh cs).outcome m = (.ok fs, m')) :
    ∃ ts : List Expansion, ts.map root = cs ∧ ValidEach s narrow ts ∧ FreshEach fresh ts ∧
      (fs = [] ↔ routesEach ts = []) ∧
      fs.flatMap Filter.guarded = (routesEach ts).map selected := by
  induction cs generalizing m fs with
  | nil =>
    rw [expandEach] at h
    obtain ⟨rfl, -⟩ := Compilation.pure_eq_ok.mp h
    exact ⟨[], rfl, trivial, trivial, by simp [routesEach], rfl⟩
  | cons c cs ih =>
    rw [expandEach_cons] at h
    obtain ⟨o, m₁, h₁, h⟩ := bind_eq_ok.mp h
    obtain ⟨others, m₂, h₂, h₃⟩ := bind_eq_ok.mp h
    obtain ⟨rfl, rfl⟩ := Compilation.pure_eq_ok.mp h₃
    obtain ⟨t, hroot, hvalid, hfresh, hnone, hleaves⟩ := hexpand h₁
    obtain ⟨ts, hroots, hvalids, hfreshs, hnil, hothers⟩ := ih h₂
    refine ⟨t :: ts, by rw [List.map_cons, hroot, hroots], ⟨hvalid, hvalids⟩, ⟨hfresh, hfreshs⟩,
      ?_, ?_⟩
    · have htoList : o.toList = [] ↔ o = none := by cases o <;> simp
      rw [routesEach, List.append_eq_nil_iff, List.append_eq_nil_iff, htoList, hnone, hnil]
    · rw [List.flatMap_append, hleaves, hothers, routesEach, List.map_append]

/-- The leaves of a folder. -/
theorem guarded_folder (c : Collection) {fs : List Filter} {ts : List Expansion}
    (hnil : fs = [] ↔ routesEach ts = [])
    (hleaves : fs.flatMap Filter.guarded = (routesEach ts).map selected) :
    ((Filter.any? fs).getD (.inCollection c.path)).guarded =
      (Expansion.folder c ts).routes.map selected := by
  by_cases hfs : fs = []
  · have hroutes := hnil.mp hfs
    subst hfs
    rw [routes, hroutes]
    rfl
  · have hroutes : routesEach ts ≠ [] := fun h => hfs (hnil.mpr h)
    have hself : orSelf (routesEach ts) = routesEach ts := by
      obtain ⟨r, rs, hr⟩ := List.exists_cons_of_ne_nil hroutes
      rw [hr]; rfl
    rw [Filter.any?, Filter.combine_eq_merged .or hfs, Option.getD_some, Filter.guarded_merged_or,
      hleaves, routes, hself, List.map_map]
    refine List.map_congr_left fun route hroute => ?_
    rw [routesEach_eq_flatMap, List.mem_flatMap] at hroute
    obtain ⟨t, -, hroute⟩ := hroute
    obtain ⟨p, rest, rfl, -⟩ := exists_cons_of_mem_routes hroute
    exact (selected_cons (p := ⟨c, none⟩) (List.cons_ne_nil p rest)).symm

/-- The leaves behind an alias. -/
theorem guarded_link (c : Collection) (own : Option Filter) {f : Filter} {t : Expansion}
    (hleaves : f.guarded = t.routes.map selected) :
    (narrowed c.path own f).guarded = (Expansion.link c own t).routes.map selected := by
  have hcons : (Expansion.link c own t).routes.map selected =
      t.routes.map fun route => Filter.under own.toList (selected route) := by
    rw [routes, List.map_map]
    refine List.map_congr_left fun route hroute => ?_
    obtain ⟨p, rest, rfl, -⟩ := exists_cons_of_mem_routes hroute
    exact selected_cons (p := ⟨c, own⟩) (List.cons_ne_nil p rest)
  rw [hcons]
  cases own with
  | none => simpa [narrowed, Filter.under_nil] using hleaves
  | some g =>
    have hand := Filter.guarded_and (some c.path) [g] f
    rw [hleaves, List.map_map] at hand
    exact hand

theorem expandSound_of (hm : c.path ∈ fresh)
    (ih : s.ExpandSound narrow (Hierarchy.without fresh c.path)) {m m' : Memos}
    {o : Option Filter} (h : (s.expand narrow fresh c).outcome m = (.ok o, m')) :
    ∃ t : Expansion, t.root = c ∧ t.Valid s narrow ∧ t.Fresh fresh ∧
      (o = none ↔ t.routes = []) ∧ o.toList.flatMap Filter.guarded = t.routes.map selected := by
  cases hk : c.kind with
  | calendar =>
    rw [expand_calendar hm hk] at h
    obtain ⟨rfl, -⟩ := Compilation.pure_eq_ok.mp h
    exact ⟨.calendar c, rfl, hk, hm, by simp [routes], rfl⟩
  | folder =>
    obtain ⟨children, fs, hchildren, hfs, rfl⟩ := (expand_folder_eq_ok hm hk).mp h
    obtain ⟨ts, hroots, hvalid, hfresh, hnil, hleaves⟩ := expandEach_sound ih hfs
    refine ⟨.folder c ts, rfl, ⟨hk, ⟨children, hchildren, hroots.symm⟩, hvalid⟩, ⟨hm, hfresh⟩,
      ?_, ?_⟩
    · have hself : orSelf (routesEach ts) ≠ [] := by unfold orSelf; split <;> simp_all
      simp [routes, hself]
    · rw [Option.toList_some, List.flatMap_singleton]
      exact guarded_folder c hnil hleaves
  | link =>
    obtain ⟨own, m₁, hown, ⟨rfl, -, hdangling⟩ | ⟨path, d, inner, htarget, hd, hinner, rfl⟩⟩ :=
      (expand_link_eq_ok hm hk).mp h
    · exact ⟨.dangling c, rfl, ⟨hk, hdangling⟩, hm, by simp [routes], rfl⟩
    · obtain ⟨t, rfl, hvalid, hfresh, hnone, hleaves⟩ := ih hinner
      refine ⟨.link c own t, rfl, ⟨hk, imposes_of_own hown, ⟨path, htarget, hd⟩, hvalid⟩,
        ⟨hm, hfresh⟩, by simp [routes, hnone], ?_⟩
      cases inner with
      | none => simp [routes, hnone.mp rfl]
      | some f =>
        rw [Option.toList_some, List.flatMap_singleton] at hleaves
        rw [Option.map_some, Option.toList_some, List.flatMap_singleton]
        exact guarded_link c own hleaves

/-- Whatever an expansion gives, a tree of the hierarchy says the same. -/
theorem expand_sound (s : Selection) (narrow : Bool) (fresh : List String) :
    s.ExpandSound narrow fresh := by
  induction hn : fresh.length using Nat.strongRecOn generalizing fresh with
  | ind n ih =>
    subst hn
    intro c m m' o h
    by_cases hm : c.path ∈ fresh
    · exact expandSound_of hm (ih _ (Hierarchy.length_without_lt hm) _ rfl) h
    · rw [expand_cycle hm] at h
      cases h

end Selection

end CalendarQuery

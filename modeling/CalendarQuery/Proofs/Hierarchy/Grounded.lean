import CalendarQuery.Proofs.Hierarchy.Store
import CalendarQuery.Proofs.Selection.VirtualPath

/-!
# Paths that lead to what they name

The chain of a path goes down by names, each below the collection reached so far. It comes to the
collection stored under the path if the path is written with single slashes and there is a collection
at each path above it, none of them an alias.

* `Hierarchy.EndsAt`: where the chain of a path ends.
* `Store.LeadsTo`: the paths whose chains end where they say.
* `Store.Grounded`: the paths of the kind above; `leadsTo_of_grounded` for their chains.
-/

namespace CalendarQuery

/-- The chain of the path ends with the collection, which is no alias, and passes through no
collection twice. -/
def Hierarchy.EndsAt (h : Hierarchy) (path : String) (target : Collection) : Prop :=
  ∃ steps, h.chain path = .ok steps ∧ Selection.Ending steps target ∧ (passedPaths steps).Nodup

namespace Store

open Hierarchy Selection

variable {s : Store}

theorem Kept.knows_of_endsAt (hs : s.Kept) {path : String} {target : Collection}
    (h : s.hierarchy.EndsAt path target) : s.Knows target := by
  obtain ⟨steps, hsteps, hending, -⟩ := h
  exact hs.answers.chain hsteps _ (List.mem_of_getLast? hending.1)

/-- The chain of the path ends with the collection that is stored there. -/
def LeadsTo (s : Store) (path : String) : Prop :=
  ∃ target, s.hierarchy.EndsAt path target ∧ target.path = path

/-- The path is written with single slashes, and at each path between the root and this one there is
a collection that is no alias. -/
def Grounded (s : Store) (path : String) : Prop :=
  (Text.pathSegments path).foldl Text.joinPath "/" = path ∧
    ∀ n, 0 < n → n < (Text.pathSegments path).length →
      ∃ c, s.find? (((Text.pathSegments path).take n).foldl Text.joinPath "/") = some c ∧
        c.isAlias = false

/-- Going down from a path, with collections that are no aliases at the paths below it. -/
theorem descend_of_found {segments : List String} {parent : String} (hne : segments ≠ [])
    (hnames : ∀ name ∈ segments, Text.IsName name)
    (hfound : ∀ n, 0 < n → n ≤ segments.length → ∃ c,
      s.find? ((segments.take n).foldl Text.joinPath parent) = some c ∧ c.isAlias = false) :
    ∃ steps target, s.hierarchy.descend parent segments = .ok steps ∧
      passedPaths steps = (segments.scanl Text.joinPath parent).tail ∧ Ending steps target ∧
      target.path = segments.foldl Text.joinPath parent := by
  induction segments generalizing parent with
  | nil => exact absurd rfl hne
  | cons name segments ih =>
    obtain ⟨c, hc, halias⟩ := hfound 1 Nat.one_pos (by simp)
    have hpath : c.path = Text.joinPath parent name := (path_of_find? hc).trans
      (Text.withoutTrailing_joinPath (hnames name List.mem_cons_self) parent)
    have hdescend : ∀ rest, s.hierarchy.descend (Text.joinPath parent name) segments = .ok rest →
        s.hierarchy.descend parent (name :: segments) = .ok (⟨c, segments.isEmpty⟩ :: rest) :=
      fun rest hrest => descend_cons_eq_ok.mpr (.inr ⟨c, ⟨[], some c⟩, congrArg Except.ok hc,
        follow_of_not_alias halias _, .inr ⟨c, rest, rfl, hpath ▸ hrest, rfl⟩⟩)
    by_cases hnil : segments = []
    · subst hnil
      exact ⟨[⟨c, true⟩], c, hdescend [] rfl, by simp [passedPaths, hpath], ⟨rfl, halias⟩, hpath⟩
    obtain ⟨rest, target, hrest, hpassed, hending, htarget⟩ := ih hnil
      (fun other hm => hnames other (List.mem_cons_of_mem name hm))
      fun n hpos hle => hfound (n + 1) n.succ_pos (Nat.succ_le_succ hle)
    refine ⟨_, target, hdescend rest hrest, ?_, ⟨?_, hending.2⟩, ?_⟩
    · rw [passedPaths, List.map_cons, ← passedPaths, hpassed, hpath]
      cases segments <;> simp [List.scanl_cons]
    · rw [List.getLast?_cons, hending.1]
      rfl
    · exact htarget

/-- Joining names to a path gives longer and longer paths. -/
theorem nodup_scanl_joinPath {segments : List String} (hnames : ∀ name ∈ segments, Text.IsName name)
    (parent : String) : (segments.scanl Text.joinPath parent).Nodup := by
  have hlonger : (∀ path ∈ segments.scanl Text.joinPath parent,
        parent.toList.length ≤ path.toList.length) ∧
      (segments.scanl Text.joinPath parent).Nodup := by
    induction segments generalizing parent with
    | nil => simp
    | cons name segments ih =>
      have hlt := Text.length_lt_length_joinPath (hnames name List.mem_cons_self) parent
      obtain ⟨hle, hnodup⟩ := ih (fun other hm => hnames other (List.mem_cons_of_mem name hm))
        (Text.joinPath parent name)
      rw [List.scanl_cons]
      refine ⟨List.forall_mem_cons.mpr ⟨le_rfl, fun path hm => hlt.le.trans (hle path hm)⟩,
        List.nodup_cons.mpr ⟨fun hm => ?_, hnodup⟩⟩
      exact absurd (hle parent hm) (Nat.not_le.mpr hlt)
  exact hlonger.2

/-- The chain of such a path leads to the collection stored there, if that is no alias either. -/
theorem leadsTo_of_grounded {path : String} {c : Collection} (h : s.Grounded path)
    (hc : s.find? path = some c) (halias : c.isAlias = false) : s.LeadsTo path := by
  obtain ⟨hpath, hfound⟩ := h
  have habsolute : Text.isAbsolute path = true :=
    hpath ▸ Text.isAbsolute_foldl_joinPath (by decide) _
  obtain ⟨root, hroot⟩ := s.exists_root
  have hnames : ∀ name ∈ Text.pathSegments path, Text.IsName name := fun _ hm =>
    Text.isName_of_mem_pathSegments hm
  by_cases hnil : Text.pathSegments path = []
  · rw [hnil] at hpath
    obtain rfl : "/" = path := hpath
    have hsteps : s.hierarchy.chain "/" = .ok [⟨c, true⟩] :=
      chain_eq_ok.mpr ⟨habsolute, some c, [], congrArg Except.ok hc, by rw [hnil]; rfl,
        by rw [hnil]; rfl⟩
    exact ⟨c, ⟨_, hsteps, ⟨rfl, halias⟩, by simp [passedPaths]⟩, find?_root hc⟩
  obtain ⟨below, target, hbelow, hpassed, hending, htarget⟩ :=
    descend_of_found (s := s) hnil hnames fun n hpos hle => by
      rcases Nat.lt_or_eq_of_le hle with hlt | rfl
      · exact hfound n hpos hlt
      · rw [List.take_length, hpath]
        exact ⟨c, hc, halias⟩
  have hsteps : s.hierarchy.chain path = .ok (⟨root, false⟩ :: below) :=
    chain_eq_ok.mpr ⟨habsolute, some root, below, congrArg Except.ok hroot, hbelow, by
      simp [List.isEmpty_eq_false_iff.mpr hnil]⟩
  refine ⟨target, ⟨_, hsteps, ⟨?_, hending.2⟩, ?_⟩, htarget.trans hpath⟩
  · rw [List.getLast?_cons, hending.1]
    rfl
  · have hpaths : passedPaths (⟨root, false⟩ :: below) =
        (Text.pathSegments path).scanl Text.joinPath "/" := by
      rw [passedPaths, List.map_cons, ← passedPaths, hpassed, find?_root hroot]
      cases Text.pathSegments path <;> simp [List.scanl_cons]
    rw [hpaths]
    exact nodup_scanl_joinPath hnames "/"

end Store

end CalendarQuery

import CalendarQuery.Proofs.Selection.Memos
import CalendarQuery.Proofs.Selection.Resolve

/-!
# The collections that a path selects

Attached filters narrow what a path selects and change none of its collections. So a virtual path
selects the collections that the collection path of the same name does, and where the first one
resolves, the second one does.

* `Filter.leaves`: the collections that a filter selects.
* `Filter.memberLeaves`: the same for each member of a conjunction.
* `Selection.resolve_bare`: the collections of a virtual path, without its filters.
-/

namespace CalendarQuery

namespace Filter

/-- The collections that a filter selects, in order. -/
def leaves (f : Filter) : List String := f.guarded.map Prod.fst

/-- The collections that each member of an unnamed conjunction selects. -/
def memberLeaves (f : Filter) : List (List String) := (parts .and f).map leaves

theorem leaves_and (name : Option String) (guards : List Filter) (f : Filter) :
    (Filter.and name (guards ++ [f])).leaves = f.leaves := by
  rw [leaves, guarded_and, List.map_map]
  rfl

theorem leaves_narrowed (name : String) (own : Option Filter) (f : Filter) :
    (Selection.narrowed name own f).leaves = f.leaves := by
  cases own with
  | none => rfl
  | some g => exact leaves_and (some name) [g] f

theorem leaves_merged_or (fs : List Filter) : (merged .or fs).leaves = (fs.map leaves).flatten := by
  rw [leaves, guarded_merged_or, List.map_flatMap]
  exact (List.flatMap_def ..)

/-- What the members of a folder select depends on what each of them selects. -/
theorem leaves_any?_congr {fs gs : List Filter} (h : fs.map leaves = gs.map leaves) (d : Filter) :
    ((any? fs).getD d).leaves = ((any? gs).getD d).leaves := by
  by_cases hfs : fs = []
  · subst hfs
    obtain rfl : gs = [] := List.map_eq_nil_iff.mp h.symm
    rfl
  · have hgs : gs ≠ [] := by
      intro hgs
      rw [hgs] at h
      exact hfs (List.map_eq_nil_iff.mp h)
    rw [any?, any?, combine_eq_merged .or hfs, combine_eq_merged .or hgs, Option.getD_some,
      Option.getD_some, leaves_merged_or, leaves_merged_or, h]

/-- A merged group has the parts of its members. -/
theorem parts_merged (op : LogicalOp) (fs : List Filter) :
    parts op (merged op fs) = fs.flatMap (parts op) := by
  match fs with
  | [] => cases op <;> rfl
  | [f] => simp [merged]
  | f :: g :: fs =>
    rw [merged]
    · exact parts_group op _
    · simp

end Filter

namespace Selection

open Compilation

variable {s s' : Selection} {vpath : String} {m m' : Memos}

/-- Selections that differ at most in how attached filters are compiled. -/
def Agrees (s s' : Selection) : Prop := s'.hierarchy = s.hierarchy ∧ s'.explicit = s.explicit

/-- An expansion selects the same collections without attached filters. -/
def ExpandBare (s s' : Selection) (fresh : List String) : Prop :=
  ∀ ⦃c : Collection⦄ ⦃m m' : Memos⦄ ⦃o : Option Filter⦄,
    (s.expand true fresh c).outcome m = (.ok o, m') →
    ∃ o', (∀ m, (s'.expand false fresh c).outcome m = (.ok o', m)) ∧
      o'.map Filter.leaves = o.map Filter.leaves

theorem expandEach_bare {fresh : List String} (hexpand : ExpandBare s s' fresh)
    {cs : List Collection} {fs : List Filter}
    (h : (s.expandEach true fresh cs).outcome m = (.ok fs, m')) :
    ∃ gs, (∀ m, (s'.expandEach false fresh cs).outcome m = (.ok gs, m)) ∧
      gs.map Filter.leaves = fs.map Filter.leaves := by
  induction cs generalizing m fs with
  | nil =>
    rw [expandEach] at h
    obtain ⟨rfl, -⟩ := Compilation.pure_eq_ok.mp h
    exact ⟨[], fun m => by rw [expandEach]; rfl, rfl⟩
  | cons c cs ih =>
    rw [expandEach_cons] at h
    obtain ⟨o, m₁, h₁, h⟩ := bind_eq_ok.mp h
    obtain ⟨others, m₂, h₂, h₃⟩ := bind_eq_ok.mp h
    obtain ⟨rfl, rfl⟩ := Compilation.pure_eq_ok.mp h₃
    obtain ⟨o', ho, hleaves⟩ := hexpand h₁
    obtain ⟨gs, hgs, hothers⟩ := ih h₂
    refine ⟨o'.toList ++ gs, fun m => ?_, ?_⟩
    · rw [expandEach_cons, outcome_bind_of_ok (ho m), outcome_bind_of_ok (hgs m)]
      rfl
    · have htoList : o'.toList.map Filter.leaves = o.toList.map Filter.leaves := by
        rw [← Option.toList_map, ← Option.toList_map, hleaves]
      rw [List.map_append, List.map_append, htoList, hothers]

theorem expandBare_of (hs : Agrees s s') {fresh : List String} {c : Collection}
    (hm : c.path ∈ fresh) (ih : ExpandBare s s' (Hierarchy.without fresh c.path))
    {o : Option Filter} (h : (s.expand true fresh c).outcome m = (.ok o, m')) :
    ∃ o', (∀ m, (s'.expand false fresh c).outcome m = (.ok o', m)) ∧
      o'.map Filter.leaves = o.map Filter.leaves := by
  cases hk : c.kind with
  | calendar =>
    rw [expand_calendar hm hk] at h
    obtain ⟨rfl, -⟩ := Compilation.pure_eq_ok.mp h
    exact ⟨_, fun m => by rw [expand_calendar hm hk]; rfl, rfl⟩
  | folder =>
    obtain ⟨children, fs, hchildren, hfs, rfl⟩ := (expand_folder_eq_ok hm hk).mp h
    obtain ⟨gs, hgs, hleaves⟩ := expandEach_bare ih hfs
    have hvisible : s'.visible children = s.visible children := by rw [visible, visible, hs.2]
    refine ⟨some ((Filter.any? gs).getD (.inCollection c.path)), fun m => ?_, ?_⟩
    · refine (expand_folder_eq_ok hm hk).mpr ⟨children, gs, by rw [hs.1]; exact hchildren, ?_, rfl⟩
      rw [hvisible]
      exact hgs m
    · exact congrArg some (Filter.leaves_any?_congr hleaves _)
  | link =>
    have hown : ∀ m, (s'.own false c.path c).outcome m = (.ok none, m) := fun m => by
      rw [own_false]; rfl
    obtain ⟨own, m₁, -, ⟨rfl, -, hdangling⟩ | ⟨path, d, inner, htarget, hd, hinner, rfl⟩⟩ :=
      (expand_link_eq_ok hm hk).mp h
    · refine ⟨none, fun m => ?_, rfl⟩
      exact (expand_link_eq_ok hm hk).mpr
        ⟨none, m, hown m, .inl ⟨rfl, rfl, by rw [hs.1]; exact hdangling⟩⟩
    · obtain ⟨inner', hinner', hleaves⟩ := ih hinner
      refine ⟨inner'.map (narrowed c.path none), fun m => ?_, ?_⟩
      · refine (expand_link_eq_ok hm hk).mpr ⟨none, m, hown m, .inr ?_⟩
        exact ⟨path, d, inner', htarget, by rw [hs.1]; exact hd, hinner' m, rfl⟩
      · have hnarrowed : ∀ own, Filter.leaves ∘ narrowed c.path own = Filter.leaves := fun own =>
          funext fun f => Filter.leaves_narrowed c.path own f
        rw [Option.map_map, Option.map_map, hnarrowed, hnarrowed, hleaves]

theorem expand_bare (hs : Agrees s s') (fresh : List String) : ExpandBare s s' fresh := by
  induction hn : fresh.length using Nat.strongRecOn generalizing fresh with
  | ind n ih =>
    subst hn
    intro c m m' o h
    by_cases hm : c.path ∈ fresh
    · exact expandBare_of hs hm (ih _ (Hierarchy.length_without_lt hm) _ rfl) h
    · rw [expand_cycle hm] at h
      cases h

/-- A walk finds the same collection without attached filters. -/
theorem walk_bare {steps : List ChainStep} {seen : List String} {filters : List Filter}
    {target : Option Collection}
    (h : (s.walk vpath true seen steps).outcome m = (.ok (filters, target), m')) (m₁ : Memos) :
    (s'.walk vpath false seen steps).outcome m₁ = (.ok ([], target), m₁) := by
  induction steps generalizing seen m m' filters with
  | nil =>
    obtain ⟨heq, -⟩ := Compilation.pure_eq_ok.mp h
    obtain ⟨-, rfl⟩ := Prod.mk.inj heq
    rfl
  | cons step steps ih =>
    rw [walk] at h ⊢
    by_cases hseen : step.collection.path ∈ seen
    · simp only [if_pos hseen] at h
      cases h
    · simp only [if_neg hseen, own_false, pure_bind] at h ⊢
      obtain ⟨own, m₂, -, h⟩ := bind_eq_ok.mp h
      by_cases hend : (step.terminal && !step.collection.isAlias) = true
      · rw [if_pos hend] at h ⊢
        obtain ⟨heq, -⟩ := Compilation.pure_eq_ok.mp h
        obtain ⟨-, rfl⟩ := Prod.mk.inj heq
        rfl
      · rw [if_neg hend] at h ⊢
        obtain ⟨⟨others, found⟩, m₃, h₃, h₄⟩ := bind_eq_ok.mp h
        obtain ⟨heq, -⟩ := Compilation.pure_eq_ok.mp h₄
        obtain ⟨-, rfl⟩ := Prod.mk.inj heq
        rw [outcome_bind_of_ok (ih h₃)]
        rfl

/-- Where a virtual path resolves, the collection path resolves without memos, and selects the
same collections. The filter of the virtual path is a named group. -/
theorem resolve_bare (hs : Agrees s s') (hresolving : vpath ∉ s'.resolving) {f : Filter}
    (h : (s.virtualPath vpath).outcome m = (.ok f, m')) :
    Filter.parts .and f = [f] ∧
      ∃ g, (∀ m, (s'.collectionPath vpath).outcome m = (.ok g, m)) ∧ g.leaves = f.leaves := by
  unfold virtualPath resolve at h
  split at h
  · cases h
  obtain ⟨steps, m₁, h₁, h⟩ := bind_eq_ok.mp h
  obtain ⟨⟨filters, target⟩, m₂, h₂, h⟩ := bind_eq_ok.mp h
  obtain ⟨hchain, rfl⟩ := chain_eq_ok.mp h₁
  cases target with
  | none => cases h
  | some target =>
    obtain ⟨o, m₃, h₃, h⟩ := bind_eq_ok.mp h
    cases o with
    | none => cases h
    | some inner =>
      obtain ⟨rfl, -⟩ := Compilation.pure_eq_ok.mp h
      obtain ⟨o', ho, hleaves⟩ := expand_bare hs s.hierarchy.paths h₃
      obtain ⟨g, rfl, hg⟩ := Option.map_eq_some_iff.mp hleaves
      refine ⟨rfl, g, fun m => ?_, hg.trans (Filter.leaves_and _ filters inner).symm⟩
      have hchain' : s'.hierarchy.chain vpath = .ok steps := by rw [hs.1]; exact hchain
      exact outcome_resolve hresolving hchain' (walk_bare h₂ m) (by rw [hs.1]; exact ho m)

end Selection

end CalendarQuery

import CalendarQuery.Comparison.Compile
import CalendarQuery.Proofs.Selection.Expansion

/-!
# What a path resolves to

Resolving a path passes through the collections of its chain and then through the expansion of the
last of them.

* `Selection.Resolution`: the collections that a path passes through.
* `Selection.resolve_sound`: the filter of a path selects what its resolution says.
-/

namespace CalendarQuery.Selection

open Compilation Expansion

variable {s : Selection} {narrow : Bool} {vpath : String}

/-- A step at which a path ends: what its last segment names, with aliases followed. -/
def Ends (step : ChainStep) : Prop := (step.terminal && !step.collection.isAlias) = true

/-- The collections of a chain up to the first one at which the path ends. -/
def Walked (steps : List ChainStep) (passed : List Collection) (target : Collection) : Prop :=
  ∃ before last after, steps = before ++ last :: after ∧ (∀ step ∈ before, ¬Ends step) ∧
    Ends last ∧ passed = (before ++ [last]).map ChainStep.collection ∧ target = last.collection

theorem walked_end {step : ChainStep} (steps : List ChainStep) (h : Ends step) :
    Walked (step :: steps) [step.collection] step.collection :=
  ⟨[], step, steps, rfl, by simp, h, rfl, rfl⟩

theorem Walked.cons {step : ChainStep} {steps : List ChainStep} {passed : List Collection}
    {target : Collection} (h : Walked steps passed target) (hstep : ¬Ends step) :
    Walked (step :: steps) (step.collection :: passed) target := by
  obtain ⟨before, last, after, rfl, hbefore, hlast, rfl, htarget⟩ := h
  refine ⟨step :: before, last, after, rfl, ?_, hlast, rfl, htarget⟩
  intro x hx
  rcases List.mem_cons.mp hx with rfl | hx
  · exact hstep
  · exact hbefore x hx

theorem Walked.getLast? {steps : List ChainStep} {passed : List Collection} {target : Collection}
    (h : Walked steps passed target) : passed.getLast? = some target := by
  obtain ⟨before, last, after, -, -, -, rfl, rfl⟩ := h
  simp

/-- The way from the root to what a path selects: the collections of the chain, the last of which is
expanded. -/
structure Resolution (s : Selection) (narrow : Bool) (vpath : String) (passed : List Passage)
    (t : Expansion) : Prop where
  walked : ∃ steps, s.hierarchy.chain vpath = .ok steps ∧
    Walked steps (passed.map Passage.collection) t.root
  imposes : ∀ p ∈ passed, s.Imposes narrow vpath p
  valid : t.Valid s narrow

/-- A path that is being resolved is not resolved again. -/
theorem resolve_of_resolving (h : vpath ∈ s.resolving) :
    s.resolve vpath narrow = throw (.aliasCycle vpath) := by
  rw [resolve, if_pos h]

/-- The steps of a path, however a failure to find them is reported. -/
theorem chain_eq_ok {m m' : Memos} {steps : List ChainStep} :
    (Compilation.ofExcept ((s.hierarchy.chain vpath).mapError walkError)).outcome m =
      (.ok steps, m') ↔ s.hierarchy.chain vpath = .ok steps ∧ m = m' := by
  rw [ofExcept_eq_ok]
  cases s.hierarchy.chain vpath with
  | error cause => constructor <;> rintro ⟨h, -⟩ <;> cases h
  | ok found => constructor <;> rintro ⟨h, rfl⟩ <;> cases h <;> exact ⟨rfl, rfl⟩

/-- A walk along a chain passes through its collections up to the one it finds. -/
theorem walk_sound {steps : List ChainStep} {seen : List String} {m m' : Memos}
    {filters : List Filter} {target : Collection}
    (h : (s.walk vpath narrow seen steps).outcome m = (.ok (filters, some target), m')) :
    ∃ passed : List Passage, Walked steps (passed.map Passage.collection) target ∧
      (∀ p ∈ passed, s.Imposes narrow vpath p) ∧ filters = passed.filterMap Passage.imposed := by
  induction steps generalizing seen m filters with
  | nil => cases h
  | cons step steps ih =>
    rw [walk] at h
    by_cases hseen : step.collection.path ∈ seen
    · simp only [if_pos hseen] at h
      cases h
    · simp only [if_neg hseen] at h
      obtain ⟨own, m₁, h₁, h⟩ := bind_eq_ok.mp h
      have himposes := imposes_of_own h₁
      by_cases hend : (step.terminal && !step.collection.isAlias) = true
      · rw [if_pos hend] at h
        obtain ⟨heq, rfl⟩ := Compilation.pure_eq_ok.mp h
        obtain ⟨rfl, htarget⟩ := Prod.mk.inj heq
        obtain rfl := Option.some.inj htarget
        refine ⟨[⟨step.collection, own⟩], walked_end steps hend, by simpa using himposes, ?_⟩
        cases own <;> simp
      · rw [if_neg hend] at h
        obtain ⟨⟨others, found⟩, m₂, h₂, h₃⟩ := bind_eq_ok.mp h
        obtain ⟨heq, rfl⟩ := Compilation.pure_eq_ok.mp h₃
        obtain ⟨rfl, rfl⟩ := Prod.mk.inj heq
        obtain ⟨passed, hwalked, himpose, rfl⟩ := ih h₂
        refine ⟨⟨step.collection, own⟩ :: passed, hwalked.cons hend, ?_, ?_⟩
        · intro q hq
          rcases List.mem_cons.mp hq with rfl | hq
          · exact himposes
          · exact himpose q hq
        · cases own <;> simp

/-- The filter that a path resolves to has one leaf for each route, under the filters imposed along
the chain and then along the route. -/
theorem resolve_sound {m m' : Memos} {f : Filter}
    (h : (s.resolve vpath narrow).outcome m = (.ok f, m')) :
    ∃ (passed : List Passage) (t : Expansion), s.Resolution narrow vpath passed t ∧
      t.Fresh s.hierarchy.paths ∧
      f.guarded = t.routes.map fun route => selected (passed ++ route) := by
  unfold resolve at h
  split at h
  · cases h
  obtain ⟨steps, m₁, h₁, h⟩ := bind_eq_ok.mp h
  obtain ⟨⟨filters, target⟩, m₂, h₂, h⟩ := bind_eq_ok.mp h
  cases target with
  | none => cases h
  | some target =>
    obtain ⟨o, m₃, h₃, h⟩ := bind_eq_ok.mp h
    cases o with
    | none => cases h
    | some g =>
      obtain ⟨hsteps, -⟩ := chain_eq_ok.mp h₁
      obtain ⟨passed, hwalked, himposes, rfl⟩ := walk_sound h₂
      obtain ⟨t, rfl, hvalid, hfresh, -, hleaves⟩ := expand_sound s narrow s.hierarchy.paths h₃
      rw [Option.toList_some, List.flatMap_singleton] at hleaves
      have hunder : t.routes.map (fun route => selected (passed ++ route)) =
          g.guarded.map (Filter.under (passed.filterMap Passage.imposed)) := by
        rw [hleaves, List.map_map]
        refine List.map_congr_left fun route hroute => ?_
        obtain ⟨p, rest, rfl, -⟩ := exists_cons_of_mem_routes hroute
        exact selected_append (List.cons_ne_nil p rest)
      refine ⟨passed, t, ⟨⟨steps, hsteps, hwalked⟩, himposes, hvalid⟩, hfresh, ?_⟩
      cases narrow with
      | true =>
        obtain ⟨rfl, -⟩ := Compilation.pure_eq_ok.mp h
        rw [hunder, Filter.guarded_and]
      | false =>
        obtain ⟨rfl, -⟩ := Compilation.pure_eq_ok.mp h
        have hnone : passed.filterMap Passage.imposed = [] := by
          refine List.filterMap_eq_nil_iff.mpr fun p hp => ?_
          have hp := himposes p hp
          unfold Imposes at hp
          split at hp
          · contradiction
          · exact hp
        rw [hunder, hnone, Filter.under_nil, List.map_id]

/-! ## Paths that need no filter -/

/-- A path whose chain and expansion are known. -/
theorem outcome_resolve {steps : List ChainStep} {filters : List Filter} {target : Collection}
    {f : Filter} {m : Memos} (hresolving : vpath ∉ s.resolving)
    (hchain : s.hierarchy.chain vpath = .ok steps)
    (hwalk : (s.walk vpath narrow [] steps).outcome m = (.ok (filters, some target), m))
    (hexpand : (s.expand narrow s.hierarchy.paths target).outcome m = (.ok (some f), m)) :
    (s.resolve vpath narrow).outcome m = (.ok (if narrow = true then
      .and (some (target.origin.getD target.path)) (filters ++ [f]) else f), m) := by
  rw [resolve, if_neg hresolving, outcome_bind_of_ok (chain_eq_ok.mpr ⟨hchain, rfl⟩),
    outcome_bind_of_ok hwalk]
  simp only
  rw [outcome_bind_of_ok hexpand]
  cases narrow <;> rfl

theorem expandEach_calendars {fresh : List String} {cs : List Collection}
    (h : ∀ c ∈ cs, c.kind = .calendar ∧ c.path ∈ fresh) :
    s.expandEach narrow fresh cs = return cs.map fun c => .inCollection c.path := by
  induction cs with
  | nil => rw [expandEach]; rfl
  | cons c cs ih =>
    obtain ⟨hk, hm⟩ := h c List.mem_cons_self
    rw [expandEach_cons, expand_calendar hm hk, ih fun d hd => h d (List.mem_cons_of_mem c hd)]
    simp

/-- A path of one segment that names no alias. -/
theorem chain_single {h : Hierarchy} {segment : String} {root c : Collection}
    (habsolute : Text.isAbsolute vpath = true) (hsegments : Text.pathSegments vpath = [segment])
    (hroot : h.collection "/" = .ok (some root))
    (hc : h.collection (Text.joinPath "/" segment) = .ok (some c)) (hk : c.isAlias = false) :
    h.chain vpath = .ok [⟨root, false⟩, ⟨c, true⟩] := by
  have hfollow : h.follow h.paths c = .ok ⟨[], some c⟩ := by
    rw [Hierarchy.follow, if_neg (by simp [hk])]
  have hdescend : h.descend "/" [segment] = .ok [⟨c, true⟩] := by
    rw [Hierarchy.descend]
    simp only [hc, hfollow]
    rfl
  rw [Hierarchy.chain, if_pos habsolute]
  simp only [hsegments, hroot, hdescend]
  rfl

theorem walk_single {root c : Collection} (hne : root.path ≠ c.path) (hroot : root.filter = none)
    (hc : c.filter = none) (hk : c.isAlias = false) (m : Memos) :
    (s.walk vpath narrow [] [⟨root, false⟩, ⟨c, true⟩]).outcome m = (.ok ([], some c), m) := by
  simp [walk, own_none hroot, own_none hc, hk, hne.symm]

/-- A folder of calendars stands for them. -/
theorem expand_calendars {fresh : List String} {c : Collection} {children : List Collection}
    (hm : c.path ∈ fresh) (hk : c.kind = .folder)
    (hchildren : s.hierarchy.children c.path = .ok children)
    (h : ∀ d ∈ s.visible children, d.kind = .calendar ∧ d.path ∈ Hierarchy.without fresh c.path) :
    s.expand narrow fresh c = return some ((Filter.any? ((s.visible children).map fun d =>
      .inCollection d.path)).getD (.inCollection c.path)) := by
  rw [expand_folder hm hk, hchildren]
  simp only [Compilation.ofLookup, pure_bind, expandEach_calendars h]

/-! ## Lists of one name -/

/-- The filters of a single name are its filter. -/
theorem together_single (f : String → Compilation Filter) (name : String) :
    (do together (← [name].mapM f)) = f name := by
  simp [together, Filter.all?, Filter.combine]

theorem compile_view (name : String) : s.compile (.views [name]) = s.viewFilter name :=
  together_single s.viewFilter name

theorem compile_virtualPath (path : String) :
    s.compile (.virtualPaths [path]) = s.virtualPath path :=
  together_single s.virtualPath path

theorem compile_collectionPath (path : String) :
    s.compile (.collectionPaths [path]) = s.collectionPath path :=
  together_single s.collectionPath path

end CalendarQuery.Selection

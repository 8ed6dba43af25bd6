import CalendarQuery.Proofs.Compiler
import CalendarQuery.Proofs.Hierarchy.Chain
import CalendarQuery.Proofs.Selection.Resolve
import Mathlib.Data.List.Basic
import Mathlib.Data.List.Induction

/-!
# The meaning of a virtual path

A virtual path leads along its chain to what its last segment names. The filters attached along the
chain stand before the expansion of that collection, in the order of the chain, in one group that is
named after the collection, or after the alias that the last segment names.

* `Selection.pass`: a walk that goes to the end of the chain, with `pass_eq_ok` and `pass_eq_error`.
* `Selection.Ending`: the chain ends with what the path names, and that is no alias.
* `Selection.resolve_true_eq_ok`, `Selection.resolve_true_of_no_ending`: when a virtual path is a
  filter, and why it is none if its chain has no such end.
* `Compiler.virtualPath_meaning`: the same for the filters of a compiler, in whatever context.
-/

namespace CalendarQuery

namespace Selection

open Compilation Hierarchy

variable {s : Selection} {vpath : String}

/-! ## Walks to the end of a chain -/

/-- The filters attached along a chain, with the paths of their collections. -/
def attachedTo (steps : List ChainStep) : List (String × String) :=
  steps.filterMap fun step => step.collection.filter.map fun expression =>
    (step.collection.path, expression)

/-- Compiles the filters attached along a chain, one after the other. -/
def attachedAlong (s : Selection) (vpath : String) (steps : List ChainStep) :
    Compilation (List Filter) :=
  (attachedTo steps).mapM fun (owner, expression) => s.attached vpath owner expression

/-- The same, as long as no collection comes twice. -/
def pass (s : Selection) (vpath : String) :
    (seen : List String) → List ChainStep → Compilation (List Filter)
  | _, [] => return []
  | seen, step :: steps =>
    if step.collection.path ∈ seen then throw (.aliasCycle step.collection.path)
    else do
      let own ← s.own true vpath step.collection
      let others ← pass s vpath (step.collection.path :: seen) steps
      return own.toList ++ others

/-- No collection comes twice, and none is among those seen before. -/
def Distinct (seen : List String) (steps : List ChainStep) : Prop :=
  (passedPaths steps).Nodup ∧ ∀ path ∈ passedPaths steps, path ∉ seen

theorem distinct_nil_left {steps : List ChainStep} :
    Distinct [] steps ↔ (passedPaths steps).Nodup := by
  simp [Distinct]

theorem distinct_cons {seen : List String} {step : ChainStep} {steps : List ChainStep} :
    Distinct seen (step :: steps) ↔
      step.collection.path ∉ seen ∧ Distinct (step.collection.path :: seen) steps := by
  unfold Distinct passedPaths
  rw [List.map_cons, List.nodup_cons]
  constructor
  · rintro ⟨⟨hnew, hnodup⟩, hseen⟩
    refine ⟨hseen _ List.mem_cons_self, hnodup, fun path hpath hm => ?_⟩
    rcases List.mem_cons.mp hm with rfl | hm
    · exact hnew hpath
    · exact hseen path (List.mem_cons_of_mem _ hpath) hm
  · rintro ⟨hstep, hnodup, hseen⟩
    refine ⟨⟨fun hm => hseen _ hm List.mem_cons_self, hnodup⟩, fun path hpath => ?_⟩
    rcases List.mem_cons.mp hpath with rfl | hpath
    · exact hstep
    · exact fun hm => hseen path hpath (List.mem_cons_of_mem _ hm)

/-- The step at which a walk along the chain stops: its collection has been seen, or the filter
attached to it does not compile. All before it are distinct and compile. -/
def Obstacle (s : Selection) (vpath : String) (seen : List String) (steps : List ChainStep)
    (m : Memos) (cause : QueryError) (m' : Memos) : Prop :=
  ∃ before step after filters m₁, steps = before ++ step :: after ∧ Distinct seen before ∧
    (s.attachedAlong vpath before).outcome m = (.ok filters, m₁) ∧
    ((step.collection.path ∈ seen ++ passedPaths before ∧
        cause = .aliasCycle step.collection.path ∧ m' = m₁) ∨
      (step.collection.path ∉ seen ++ passedPaths before ∧
        ∃ expression, step.collection.filter = some expression ∧
          (s.attached vpath step.collection.path expression).outcome m₁ = (.error cause, m')))

theorem pass_cons_of_mem {seen : List String} {step : ChainStep} (steps : List ChainStep)
    (h : step.collection.path ∈ seen) :
    s.pass vpath seen (step :: steps) = throw (.aliasCycle step.collection.path) := by
  rw [pass, if_pos h]

theorem pass_cons_of_none {seen : List String} {step : ChainStep} (steps : List ChainStep)
    (h : step.collection.path ∉ seen) (hfilter : step.collection.filter = none) :
    s.pass vpath seen (step :: steps) = s.pass vpath (step.collection.path :: seen) steps := by
  rw [pass, if_neg h, own_none hfilter]
  simp

theorem pass_cons_of_some {seen : List String} {step : ChainStep} (steps : List ChainStep)
    {expression : String} (h : step.collection.path ∉ seen)
    (hfilter : step.collection.filter = some expression) :
    s.pass vpath seen (step :: steps) = (do
      let own ← s.attached vpath step.collection.path expression
      let others ← s.pass vpath (step.collection.path :: seen) steps
      return own :: others) := by
  rw [pass, if_neg h, own_some hfilter]
  simp

theorem attachedAlong_cons_of_none {step : ChainStep} (steps : List ChainStep)
    (hfilter : step.collection.filter = none) :
    s.attachedAlong vpath (step :: steps) = s.attachedAlong vpath steps := by
  simp [attachedAlong, attachedTo, hfilter]

theorem attachedAlong_cons_of_some {step : ChainStep} (steps : List ChainStep)
    {expression : String} (hfilter : step.collection.filter = some expression) :
    s.attachedAlong vpath (step :: steps) = (do
      let own ← s.attached vpath step.collection.path expression
      let others ← s.attachedAlong vpath steps
      return own :: others) := by
  simp [attachedAlong, attachedTo, hfilter]

/-- The walk begins with steps that are distinct and whose filters compile. -/
theorem pass_append {before : List ChainStep} (rest : List ChainStep) {seen : List String}
    {filters : List Filter} {m m₁ : Memos} (hdistinct : Distinct seen before)
    (hbefore : (s.attachedAlong vpath before).outcome m = (.ok filters, m₁)) :
    ∃ seen', (∀ path, path ∈ seen' ↔ path ∈ seen ++ passedPaths before) ∧
      (s.pass vpath seen (before ++ rest)).outcome m =
        ((filters ++ ·) <$> s.pass vpath seen' rest).outcome m₁ := by
  induction before generalizing seen filters m with
  | nil =>
    obtain ⟨rfl, rfl⟩ := Compilation.pure_eq_ok.mp hbefore
    exact ⟨seen, by simp [passedPaths], by simp⟩
  | cons step before ih =>
    obtain ⟨hnew, hdistinct⟩ := distinct_cons.mp hdistinct
    have hmem : ∀ path, path ∈ step.collection.path :: seen ++ passedPaths before ↔
        path ∈ seen ++ passedPaths (step :: before) := by
      intro path
      simp only [passedPaths, List.map_cons, List.cons_append, List.mem_cons, List.mem_append]
      exact or_left_comm
    cases hfilter : step.collection.filter with
    | none =>
      rw [attachedAlong_cons_of_none _ hfilter] at hbefore
      obtain ⟨seen', hseen', heq⟩ := ih hdistinct hbefore
      refine ⟨seen', fun path => (hseen' path).trans (hmem path), ?_⟩
      rw [List.cons_append, pass_cons_of_none _ hnew hfilter, heq]
    | some expression =>
      rw [attachedAlong_cons_of_some _ hfilter] at hbefore
      obtain ⟨own, m₂, hown, hbefore⟩ := bind_eq_ok.mp hbefore
      obtain ⟨others, m₃, hothers, hpure⟩ := bind_eq_ok.mp hbefore
      obtain ⟨rfl, rfl⟩ := Compilation.pure_eq_ok.mp hpure
      obtain ⟨seen', hseen', heq⟩ := ih hdistinct hothers
      refine ⟨seen', fun path => (hseen' path).trans (hmem path), ?_⟩
      rw [List.cons_append, pass_cons_of_some _ hnew hfilter, outcome_bind_of_ok hown,
        outcome_bind, heq]
      simp only [outcome_map]
      rcases (s.pass vpath seen' rest).outcome m₃ with ⟨cause | fs, m₄⟩ <;> rfl

/-- The walk succeeds if no collection comes twice and every attached filter compiles. -/
theorem pass_of_distinct {seen : List String} {steps : List ChainStep} {filters : List Filter}
    {m m' : Memos} (hdistinct : Distinct seen steps)
    (hsteps : (s.attachedAlong vpath steps).outcome m = (.ok filters, m')) :
    (s.pass vpath seen steps).outcome m = (.ok filters, m') := by
  obtain ⟨seen', -, heq⟩ := pass_append [] hdistinct hsteps
  rw [List.append_nil] at heq
  rw [heq, pass]
  simp

/-- The walk stops at an obstacle. -/
theorem pass_of_obstacle {seen : List String} {steps : List ChainStep} {m m' : Memos}
    {cause : QueryError} (h : s.Obstacle vpath seen steps m cause m') :
    (s.pass vpath seen steps).outcome m = (.error cause, m') := by
  obtain ⟨before, step, after, filters, m₁, rfl, hdistinct, hbefore, hstep⟩ := h
  obtain ⟨seen', hseen', heq⟩ := pass_append (step :: after) hdistinct hbefore
  rw [heq, outcome_map]
  obtain ⟨hm, rfl, rfl⟩ | ⟨hm, expression, hfilter, hattached⟩ := hstep
  · rw [pass_cons_of_mem _ ((hseen' _).mpr hm)]
    rfl
  · rw [pass_cons_of_some _ (fun h => hm ((hseen' _).mp h)) hfilter,
      outcome_bind_of_error hattached]
    rfl

/-- There is nothing between the two. -/
theorem distinct_or_obstacle (s : Selection) (vpath : String) (steps : List ChainStep) (m : Memos) :
    (∃ filters m', Distinct [] steps ∧
        (s.attachedAlong vpath steps).outcome m = (.ok filters, m')) ∨
      ∃ cause m', s.Obstacle vpath [] steps m cause m' := by
  induction steps using List.reverseRecOn with
  | nil => exact .inl ⟨[], m, by simp [Distinct, passedPaths], rfl⟩
  | append_singleton before step ih =>
    obtain ⟨filters, m₁, hdistinct, hbefore⟩ | ⟨cause, m', before', step', after, hsplit⟩ := ih
    · by_cases hm : step.collection.path ∈ [] ++ passedPaths before
      · exact .inr ⟨_, m₁, before, step, [], filters, m₁, rfl, hdistinct, hbefore,
          .inl ⟨hm, rfl, rfl⟩⟩
      have hdistinct' : Distinct [] (before ++ [step]) := by
        rw [distinct_nil_left] at hdistinct ⊢
        rw [passedPaths, List.map_append]
        refine List.nodup_append.mpr ⟨hdistinct, by simp, ?_⟩
        rintro path hpath _ hm' rfl
        rw [List.map_singleton, List.mem_singleton] at hm'
        exact hm (hm' ▸ hpath)
      have happend : s.attachedAlong vpath (before ++ [step]) = (do
          let filters ← s.attachedAlong vpath before
          let own ← s.attachedAlong vpath [step]
          return filters ++ own) := by
        simp [attachedAlong, attachedTo, List.mapM_append]
      cases hfilter : step.collection.filter with
      | none =>
        refine .inl ⟨filters, m₁, hdistinct', ?_⟩
        rw [happend, outcome_bind_of_ok hbefore, attachedAlong_cons_of_none _ hfilter]
        simp [attachedAlong, attachedTo]
      | some expression =>
        rcases hown : (s.attached vpath step.collection.path expression).outcome m₁ with
          ⟨cause | own, m₂⟩
        · exact .inr ⟨cause, m₂, before, step, [], filters, m₁, rfl, hdistinct, hbefore,
            .inr ⟨hm, expression, hfilter, hown⟩⟩
        · refine .inl ⟨filters ++ [own], m₂, hdistinct', ?_⟩
          rw [happend, outcome_bind_of_ok hbefore, attachedAlong_cons_of_some _ hfilter]
          simp only [bind_assoc]
          rw [outcome_bind_of_ok hown]
          simp [attachedAlong, attachedTo]
    · obtain ⟨filters, m₁, rfl, hrest⟩ := hsplit
      exact .inr ⟨cause, m', before', step', after ++ [step], filters, m₁, by simp, hrest⟩

theorem pass_eq_ok {steps : List ChainStep} {filters : List Filter} {m m' : Memos} :
    (s.pass vpath [] steps).outcome m = (.ok filters, m') ↔ (passedPaths steps).Nodup ∧
      (s.attachedAlong vpath steps).outcome m = (.ok filters, m') := by
  rw [← distinct_nil_left]
  constructor
  · intro h
    obtain ⟨filters', m₁, hdistinct, hsteps⟩ | ⟨cause, m₁, hobstacle⟩ :=
      distinct_or_obstacle s vpath steps m
    · rw [pass_of_distinct hdistinct hsteps] at h
      cases h
      exact ⟨hdistinct, hsteps⟩
    · rw [pass_of_obstacle hobstacle] at h
      cases h
  · rintro ⟨hdistinct, hsteps⟩
    exact pass_of_distinct hdistinct hsteps

theorem pass_eq_error {steps : List ChainStep} {cause : QueryError} {m m' : Memos} :
    (s.pass vpath [] steps).outcome m = (.error cause, m') ↔
      s.Obstacle vpath [] steps m cause m' := by
  constructor
  · intro h
    obtain ⟨filters, m₁, hdistinct, hsteps⟩ | ⟨cause', m₁, hobstacle⟩ :=
      distinct_or_obstacle s vpath steps m
    · rw [pass_of_distinct hdistinct hsteps] at h
      cases h
    · rw [pass_of_obstacle hobstacle] at h
      cases h
      exact hobstacle
  · exact pass_of_obstacle

/-! ## Virtual paths -/

/-- The chain ends with what the path names, and that is no alias. -/
def Ending (steps : List ChainStep) (target : Collection) : Prop :=
  steps.getLast? = some ⟨target, true⟩ ∧ target.isAlias = false

/-- A walk whose first steps do not end it goes on as it does from there. -/
theorem walk_eq_pass {target : Option Collection} {before rest : List ChainStep}
    (hbefore : ∀ step ∈ before, ¬Ends step)
    (hrest : ∀ seen, s.walk vpath true seen rest = (·, target) <$> s.pass vpath seen rest)
    (seen : List String) :
    s.walk vpath true seen (before ++ rest) = (·, target) <$> s.pass vpath seen (before ++ rest) := by
  induction before generalizing seen with
  | nil => exact hrest seen
  | cons step before ih =>
    have hstep : ¬(step.terminal && !step.collection.isAlias) = true :=
      hbefore step List.mem_cons_self
    rw [List.cons_append, walk, pass]
    simp only [hstep, Bool.false_eq_true, if_false]
    split
    · rfl
    · rw [ih fun step hm => hbefore step (List.mem_cons_of_mem _ hm)]
      simp only [map_eq_pure_bind, bind_assoc, pure_bind]

theorem walk_of_ending {steps : List ChainStep} {target : Collection}
    (hlast : ∀ step ∈ steps.dropLast, step.terminal = false) (hending : Ending steps target) :
    s.walk vpath true [] steps = (·, some target) <$> s.pass vpath [] steps := by
  obtain ⟨hget, halias⟩ := hending
  have hsplit : steps.dropLast ++ [⟨target, true⟩] = steps :=
    List.dropLast_append_getLast? _ hget
  rw [← hsplit]
  refine walk_eq_pass (fun step hm => by simp [Ends, hlast step hm]) (fun seen => ?_) []
  rw [walk, pass]
  simp only [halias]
  split
  · rfl
  · simp [pass]

theorem walk_of_no_ending {steps : List ChainStep}
    (hlast : ∀ step ∈ steps.dropLast, step.terminal = false)
    (hending : ∀ target, ¬Ending steps target) :
    s.walk vpath true [] steps = (·, none) <$> s.pass vpath [] steps := by
  have hends : ∀ step ∈ steps, ¬Ends step := by
    intro step hm hends
    obtain ⟨hterminal, halias⟩ := Bool.and_eq_true_iff.mp hends
    obtain ⟨last, hget⟩ : ∃ last, steps.getLast? = some last :=
      ⟨_, List.getLast?_eq_some_getLast (List.ne_nil_of_mem hm)⟩
    rw [← List.dropLast_append_getLast? _ hget] at hm
    rcases List.mem_append.mp hm with hm | hm
    · rw [hlast step hm] at hterminal
      cases hterminal
    · obtain rfl := List.mem_singleton.mp hm
      refine hending step.collection ⟨?_, by simpa using halias⟩
      rw [hget, ← hterminal]
  have hnil : ∀ seen, s.walk vpath true seen [] = (·, none) <$> s.pass vpath seen [] :=
    fun seen => rfl
  simpa using walk_eq_pass hends hnil []

/-- A virtual path is a filter if and only if it is not being resolved, its chain has an end and no
collection twice, the filters attached along it compile, and so does the end. -/
theorem resolve_true_eq_ok
    (hlast : ∀ steps, s.hierarchy.chain vpath = .ok steps →
      ∀ step ∈ steps.dropLast, step.terminal = false) {m m' : Memos} {f : Filter} :
    (s.resolve vpath true).outcome m = (.ok f, m') ↔ vpath ∉ s.resolving ∧
      ∃ steps target filters m₁ inner, s.hierarchy.chain vpath = .ok steps ∧
        Ending steps target ∧ (passedPaths steps).Nodup ∧
        (s.attachedAlong vpath steps).outcome m = (.ok filters, m₁) ∧
        (s.expand true s.hierarchy.paths target).outcome m₁ = (.ok (some inner), m') ∧
        f = .and (some (target.origin.getD target.path)) (filters ++ [inner]) := by
  unfold resolve
  by_cases hresolving : vpath ∈ s.resolving
  · simp [hresolving]
  rw [if_neg hresolving]
  simp only [hresolving, not_false_eq_true, true_and]
  constructor
  · intro h
    obtain ⟨steps, m₁, h₁, h⟩ := bind_eq_ok.mp h
    obtain ⟨hsteps, rfl⟩ := chain_eq_ok.mp h₁
    by_cases hending : ∃ target, Ending steps target
    · obtain ⟨target, hending⟩ := hending
      rw [walk_of_ending (hlast steps hsteps) hending] at h
      obtain ⟨⟨filters, found⟩, m₂, h₂, h⟩ := bind_eq_ok.mp h
      obtain ⟨filters', hpass, heq⟩ := map_eq_ok.mp h₂
      cases heq
      obtain ⟨o, m₃, hexpand, h⟩ := bind_eq_ok.mp h
      cases o with
      | none => cases h
      | some inner =>
        obtain ⟨rfl, rfl⟩ := Compilation.pure_eq_ok.mp h
        obtain ⟨hnodup, hfilters⟩ := pass_eq_ok.mp hpass
        exact ⟨steps, target, filters, m₂, inner, hsteps, hending, hnodup, hfilters, hexpand, rfl⟩
    · rw [walk_of_no_ending (hlast steps hsteps) (not_exists.mp hending)] at h
      obtain ⟨⟨filters, found⟩, m₂, h₂, h⟩ := bind_eq_ok.mp h
      obtain ⟨filters', -, heq⟩ := map_eq_ok.mp h₂
      cases heq
      cases h
  · rintro ⟨steps, target, filters, m₁, inner, hsteps, hending, hnodup, hfilters, hexpand, rfl⟩
    rw [outcome_bind_of_ok (chain_eq_ok.mpr ⟨hsteps, rfl⟩),
      walk_of_ending (hlast steps hsteps) hending,
      outcome_bind_of_ok (map_eq_ok.mpr ⟨filters, pass_eq_ok.mpr ⟨hnodup, hfilters⟩, rfl⟩)]
    simp only
    rw [outcome_bind_of_ok hexpand]
    rfl

/-- A path whose chain has no such end is no filter: it is being resolved, or there is an obstacle
on the chain, or else the path names nothing. -/
theorem resolve_true_of_no_ending {steps : List ChainStep}
    (hlast : ∀ step ∈ steps.dropLast, step.terminal = false)
    (hsteps : s.hierarchy.chain vpath = .ok steps) (hending : ∀ target, ¬Ending steps target)
    (m : Memos) :
    ∃ cause m', (s.resolve vpath true).outcome m = (.error cause, m') ∧
      ((vpath ∈ s.resolving ∧ cause = .aliasCycle vpath) ∨
        (vpath ∉ s.resolving ∧ s.Obstacle vpath [] steps m cause m') ∨
        (vpath ∉ s.resolving ∧ (passedPaths steps).Nodup ∧ cause = .badVpath vpath ∧
          ∃ filters, (s.attachedAlong vpath steps).outcome m = (.ok filters, m'))) := by
  unfold resolve
  by_cases hresolving : vpath ∈ s.resolving
  · rw [if_pos hresolving]
    exact ⟨_, m, rfl, .inl ⟨hresolving, rfl⟩⟩
  rw [if_neg hresolving, outcome_bind_of_ok (chain_eq_ok.mpr ⟨hsteps, rfl⟩),
    walk_of_no_ending hlast hending, outcome_bind, outcome_map]
  rcases hpass : (s.pass vpath [] steps).outcome m with ⟨cause | filters, m'⟩
  · exact ⟨cause, m', rfl, .inr (.inl ⟨hresolving, pass_eq_error.mp hpass⟩)⟩
  · obtain ⟨hnodup, hfilters⟩ := pass_eq_ok.mp hpass
    exact ⟨_, m', rfl, .inr (.inr ⟨hresolving, hnodup, rfl, filters, hfilters⟩)⟩

/-- A path without a chain. -/
theorem resolve_true_of_lookup {cause : LookupError} (h : s.hierarchy.chain vpath = .error cause)
    (hresolving : vpath ∉ s.resolving) (m : Memos) :
    (s.resolve vpath true).outcome m = (.error (walkError cause), m) := by
  rw [resolve, if_neg hresolving, h]
  rfl

end Selection

namespace Compiler

open Compilation Hierarchy Selection

/-- The expressions compile one after the other, one level of attached filters deeper than where
`levels` are left, while the paths in `resolving` are being resolved. -/
def CompilesDeeper (c : Compiler) (explicit : Bool) (levels : Nat) (resolving : List String)
    (expressions : List String) (m : Memos) (filters : List Filter) (m' : Memos) : Prop :=
  match levels with
  | 0 => expressions = [] ∧ filters = [] ∧ m = m'
  | deeper + 1 =>
    (expressions.mapM (c.compileWithin explicit deeper resolving)).outcome m = (.ok filters, m')

variable {c : Compiler} {explicit : Bool} {levels : Nat} {resolving : List String} {vpath : String}

theorem mapM_mapError_eq_ok {α : Type} {f : α → Compilation Filter} {g : α → QueryError → QueryError}
    {as : List α} {filters : List Filter} {m m' : Memos} :
    (as.mapM fun a => mapError (g a) (f a)).outcome m = (.ok filters, m') ↔
      (as.mapM f).outcome m = (.ok filters, m') := by
  induction as generalizing m m' filters with
  | nil => exact Iff.rfl
  | cons a as ih =>
    simp only [List.mapM_cons, bind_eq_ok, mapError_eq_ok, ih]

/-- The filters attached along a chain are compiled one level deeper, on behalf of its path. -/
theorem attachedAlong_eq_ok {steps : List ChainStep} {filters : List Filter} {m m' : Memos} :
    ((c.selection explicit levels resolving).attachedAlong vpath steps).outcome m =
        (.ok filters, m') ↔
      c.CompilesDeeper explicit levels (vpath :: resolving) ((attachedTo steps).map Prod.snd) m
        filters m' := by
  unfold attachedAlong CompilesDeeper
  cases levels with
  | zero =>
    cases attachedTo steps with
    | nil => simp [eq_comm]
    | cons a as =>
      rw [List.mapM_cons]
      constructor
      · intro h
        obtain ⟨f, m₁, h, -⟩ := bind_eq_ok.mp h
        cases h
      · rintro ⟨h, -⟩
        cases h
  | succ deeper =>
    simp only [List.mapM_map]
    exact mapM_mapError_eq_ok (f := fun a : String × String =>
      c.compileWithin explicit deeper (vpath :: resolving) a.2)

/-- What a virtual path means, with `levels` more levels of attached filters and while the paths in
`resolving` are being resolved. It is a filter if and only if it is not being resolved, its chain
ends with what it names and that is no alias, no collection comes twice, the filters attached along
the chain compile one level deeper and the end expands; then the filter is the group of those
filters and the expansion. The group has the name of the first alias of the last segment, or of the
end where there is none. A chain without an end gives no filter. -/
theorem virtualPath_meaning (store : Store) (limits : Limits) (explicit : Bool) (levels : Nat)
    (resolving : List String) (vpath : String) (m : Memos) :
    let c : Compiler := ⟨store.hierarchy, limits⟩
    let s := c.selection explicit levels resolving
    (∀ f m', (s.virtualPath vpath).outcome m = (.ok f, m') ↔ vpath ∉ resolving ∧
      ∃ steps target filters m₁ inner, store.hierarchy.chain vpath = .ok steps ∧
        Ending steps target ∧ (passedPaths steps).Nodup ∧
        c.CompilesDeeper explicit levels (vpath :: resolving) ((attachedTo steps).map Prod.snd) m
          filters m₁ ∧
        (s.expand true store.paths target).outcome m₁ = (.ok (some inner), m') ∧
        f = .and (some (target.origin.getD target.path)) (filters ++ [inner])) ∧
    (∀ steps target, store.hierarchy.chain vpath = .ok steps → Ending steps target →
      ∃ before run, steps = before ++ passedAliases run ++ [⟨target, true⟩] ∧
        store.hierarchy.Arrives (Text.pathSegments vpath) (reachedPath "/" before) run target ∧
        (∀ a ∈ run.aliases.head?, target.origin = some a.path) ∧
        (run.aliases = [] → (∀ d ∈ store.collections, d.origin = none) → target.origin = none)) ∧
    (∀ steps, store.hierarchy.chain vpath = .ok steps → (∀ target, ¬Ending steps target) →
      ∃ cause m', (s.virtualPath vpath).outcome m = (.error cause, m') ∧
        ((vpath ∈ resolving ∧ cause = .aliasCycle vpath) ∨
          (vpath ∉ resolving ∧ s.Obstacle vpath [] steps m cause m') ∨
          (vpath ∉ resolving ∧ (passedPaths steps).Nodup ∧ cause = .badVpath vpath ∧
            ∃ filters, c.CompilesDeeper explicit levels (vpath :: resolving)
              ((attachedTo steps).map Prod.snd) m filters m'))) ∧
    (∀ cause, store.hierarchy.chain vpath = .error cause → vpath ∉ resolving →
      (s.virtualPath vpath).outcome m = (.error (walkError cause), m)) := by
  intro c s
  have hlast : ∀ steps, s.hierarchy.chain vpath = .ok steps →
      ∀ step ∈ steps.dropLast, step.terminal = false := fun _ hsteps =>
    (Store.shaped_chain hsteps).1
  refine ⟨fun f m' => ?_, fun steps target hsteps hending => ?_, fun steps hsteps hending => ?_,
    fun cause hcause hresolving => resolve_true_of_lookup (s := s) hcause hresolving m⟩
  · simp only [← attachedAlong_eq_ok]
    exact resolve_true_eq_ok hlast
  · obtain ⟨before, run, hsplit, harrives⟩ := (Store.shaped_chain hsteps).2 target hending.1
    obtain ⟨halias, hstored⟩ := harrives.origin
    refine ⟨before, run, hsplit, harrives, halias, fun hnil hplain => ?_⟩
    obtain ⟨path, hpath⟩ := hstored hnil
    rcases Store.find?_eq_some (Except.ok.inj hpath) with hm | rfl
    · exact hplain target hm
    · rfl
  · simp only [← attachedAlong_eq_ok]
    exact resolve_true_of_no_ending (s := s) (hlast steps hsteps) hsteps hending m

end Compiler

end CalendarQuery

import CalendarQuery.Hierarchy.Store
import CalendarQuery.Hierarchy.Walk

/-!
# The chain of a virtual path

* `Hierarchy.descend_cons_eq_ok`: what one step down does.
* `Hierarchy.Arrives`: what the last segment of a path leads to, perhaps through aliases.
* `Hierarchy.shaped_chain`: only the last step of a chain can be what the path names, and then the
  last segment arrives there.
* `Hierarchy.Arrives.origin`: what is reached through aliases knows the first of them.
* `Hierarchy.Answers`: what is known of all answers; `Answers.chain` for the steps of a chain.
* `Store.Vouches`: what is known of the answers of a store, with `Store.Attaches` for attached filters.
-/

namespace CalendarQuery

namespace Hierarchy

variable {h : Hierarchy}

/-- The path of the collection of each step. -/
def passedPaths (steps : List ChainStep) : List String := steps.map fun step => step.collection.path

/-- The steps of a run of aliases. -/
def passedAliases (run : AliasRun) : List ChainStep := run.aliases.map fun a => ⟨a, false⟩

/-- The path of the collection that the steps have come to, from `start`. -/
def reachedPath (start : String) (steps : List ChainStep) : String :=
  ((passedPaths steps).getLast?).getD start

/-- The last segment names something below `parent`, from where the aliases of the run lead to the
target. A path without segments names the root. -/
def Arrives (h : Hierarchy) (segments : List String) (parent : String) (run : AliasRun)
    (target : Collection) : Prop :=
  match segments.getLast? with
  | none => run.aliases = [] ∧ h.collection "/" = .ok (some target)
  | some segment => ∃ c, h.collection (Text.joinPath parent segment) = .ok (some c) ∧
      h.follow h.paths c = .ok run ∧ AliasRun.reached run = some target

/-- Only the last step can be what the path names, and the last segment arrives there. -/
def Shaped (h : Hierarchy) (segments : List String) (start : String) (steps : List ChainStep) :
    Prop :=
  (∀ step ∈ steps.dropLast, step.terminal = false) ∧
    ∀ target, steps.getLast? = some ⟨target, true⟩ →
      ∃ before run, steps = before ++ passedAliases run ++ [⟨target, true⟩] ∧
        h.Arrives segments (reachedPath start before) run target

theorem mem_without {fresh : List String} {path other : String} :
    other ∈ without fresh path ↔ other ∈ fresh ∧ other ≠ path := by
  simp [without]

theorem not_terminal_of_mem_passedAliases {run : AliasRun} {step : ChainStep}
    (hm : step ∈ passedAliases run) : step.terminal = false := by
  obtain ⟨a, -, rfl⟩ := List.mem_map.mp hm
  rfl

/-- One segment down: nothing has the name, or aliases lead nowhere, or there is a collection, below
which the path goes on. -/
theorem descend_cons_eq_ok {parent segment : String} {segments : List String}
    {steps : List ChainStep} : h.descend parent (segment :: segments) = .ok steps ↔
      (h.collection (Text.joinPath parent segment) = .ok none ∧ steps = []) ∨
      ∃ c run, h.collection (Text.joinPath parent segment) = .ok (some c) ∧
        h.follow h.paths c = .ok run ∧
        ((AliasRun.reached run = none ∧ steps = passedAliases run) ∨
          ∃ d rest, AliasRun.reached run = some d ∧ h.descend d.path segments = .ok rest ∧
            steps = passedAliases run ++ ⟨d, segments.isEmpty⟩ :: rest) := by
  rw [descend]
  rcases hc : h.collection (Text.joinPath parent segment) with cause | _ | c
  · simp
  · simp [eq_comm]
  · rcases hf : h.follow h.paths c with cause | run
    · simp [hf]
    · cases hr : AliasRun.reached run with
      | none => simp [hf, hr, passedAliases, eq_comm]
      | some d =>
        rcases hd : h.descend d.path segments with cause | rest
        · simp [hf, hr, hd]
        · simp [hf, hr, hd, passedAliases, eq_comm]

theorem chain_eq_ok {vpath : String} {steps : List ChainStep} :
    h.chain vpath = .ok steps ↔ Text.isAbsolute vpath = true ∧ ∃ root below,
      h.collection "/" = .ok root ∧ h.descend "/" (Text.pathSegments vpath) = .ok below ∧
      steps = (root.toList.map fun c => ⟨c, (Text.pathSegments vpath).isEmpty⟩) ++ below := by
  unfold chain
  by_cases habsolute : Text.isAbsolute vpath = true
  · rcases hroot : h.collection "/" with cause | root
    · simp [habsolute]
    · rcases hbelow : h.descend "/" (Text.pathSegments vpath) with cause | below
      · simp [habsolute, hbelow]
      · simp [habsolute, hbelow, eq_comm]
  · simp [habsolute]

theorem follow_of_not_alias {c : Collection} (hc : c.isAlias = false) (fresh : List String) :
    h.follow fresh c = .ok ⟨[], some c⟩ := by
  rw [follow, if_neg (by simp [hc])]

/-- What follows from an alias whose target is there. -/
theorem follow_of_target {fresh : List String} {c d : Collection} {path : String} {run : AliasRun}
    (hc : c.isAlias = true) (hm : c.path ∈ fresh) (htarget : c.target = some path)
    (hd : h.collection path = .ok (some d)) (hrun : h.follow (without fresh c.path) d = .ok run) :
    h.follow fresh c = .ok ⟨c :: run.aliases, run.target⟩ := by
  rw [follow, if_pos hc, dif_pos hm]
  simp only [htarget, hd, hrun]

/-! ## The last step -/

/-- Steps of which none is what the path names. -/
theorem shaped_of_none {segments : List String} {start : String} {steps : List ChainStep}
    (hnone : ∀ step ∈ steps, step.terminal = false) : h.Shaped segments start steps := by
  refine ⟨fun step hm => hnone step (List.dropLast_subset _ hm), fun target hlast => ?_⟩
  have := hnone _ (List.mem_of_getLast? hlast)
  simp at this

/-- More steps before some that end with what the path names. -/
theorem Shaped.prepend {segments segments' : List String} {start start' : String}
    {before steps : List ChainStep} (hsteps : h.Shaped segments start steps) (hne : steps ≠ [])
    (hbefore : ∀ step ∈ before, step.terminal = false)
    (hstart : reachedPath start' before = start) (hlast : segments'.getLast? = segments.getLast?) :
    h.Shaped segments' start' (before ++ steps) := by
  obtain ⟨hterminal, harrives⟩ := hsteps
  refine ⟨fun step hm => ?_, fun target htarget => ?_⟩
  · rw [List.dropLast_append_of_ne_nil hne] at hm
    exact (List.mem_append.mp hm).elim (hbefore step) (hterminal step)
  · rw [List.getLast?_append, List.getLast?_eq_some_getLast hne, Option.some_or,
      ← List.getLast?_eq_some_getLast hne] at htarget
    obtain ⟨before', run, rfl, harrive⟩ := harrives target htarget
    refine ⟨before ++ before', run, by simp, ?_⟩
    have hreached : reachedPath start' (before ++ before') = reachedPath start before' := by
      rw [← hstart]
      simp only [reachedPath, passedPaths, List.map_append, List.getLast?_append]
      cases (before'.map fun step => step.collection.path).getLast? <;> rfl
    rw [hreached]
    unfold Arrives at harrive ⊢
    rwa [hlast]

theorem shaped_descend {start : String} {segments : List String} {steps : List ChainStep}
    (hsteps : h.descend start segments = .ok steps) : h.Shaped segments start steps := by
  induction segments generalizing start steps with
  | nil =>
    rw [descend] at hsteps
    cases hsteps
    exact shaped_of_none (by simp)
  | cons segment segments ih =>
    obtain ⟨-, rfl⟩ | ⟨c, run, hc, hrun, ⟨-, rfl⟩ | ⟨d, rest, hd, hrest, rfl⟩⟩ :=
      descend_cons_eq_ok.mp hsteps
    · exact shaped_of_none (by simp)
    · exact shaped_of_none fun step hm => not_terminal_of_mem_passedAliases hm
    have hrestShaped := ih hrest
    cases segments with
    | nil =>
      rw [descend] at hrest
      cases hrest
      refine ⟨fun step hm => ?_, fun target hlast => ⟨[], run, ?_, c, hc, hrun, ?_⟩⟩
      · rw [List.dropLast_concat] at hm
        exact not_terminal_of_mem_passedAliases hm
      all_goals obtain rfl : d = target := by simpa using hlast
      · rfl
      · exact hd
    | cons next segments =>
      have hbefore : ∀ step ∈ passedAliases run ++ [⟨d, false⟩], step.terminal = false := by
        intro step hm
        rcases List.mem_append.mp hm with hm | hm
        · exact not_terminal_of_mem_passedAliases hm
        · rw [List.mem_singleton.mp hm]
      have hsplit : passedAliases run ++ ⟨d, (next :: segments).isEmpty⟩ :: rest =
          (passedAliases run ++ [⟨d, false⟩]) ++ rest := by simp
      rw [hsplit]
      by_cases hne : rest = []
      · subst hne
        exact shaped_of_none (by simpa using hbefore)
      · refine hrestShaped.prepend hne hbefore ?_ (by simp)
        simp [reachedPath, passedPaths]

/-- In a hierarchy whose root is at `/`, the last step of a chain is what the last segment of the
path leads to, or the path names nothing. -/
theorem shaped_chain {vpath : String} {steps : List ChainStep}
    (hroot : ∀ root, h.collection "/" = .ok (some root) → root.path = "/")
    (hsteps : h.chain vpath = .ok steps) : h.Shaped (Text.pathSegments vpath) "/" steps := by
  obtain ⟨-, root, below, hcollection, hbelow, rfl⟩ := chain_eq_ok.mp hsteps
  have hshaped := shaped_descend hbelow
  cases root with
  | none => exact hshaped
  | some root =>
    cases hsegments : Text.pathSegments vpath with
    | nil =>
      rw [hsegments, descend] at hbelow
      cases hbelow
      refine ⟨by simp, fun target hlast => ⟨[], ⟨[], none⟩, ?_, rfl, ?_⟩⟩
      all_goals obtain rfl : root = target := by simpa using hlast
      · rfl
      · exact hcollection
    | cons segment segments =>
      rw [hsegments] at hshaped
      have hbefore : ∀ step ∈ [(⟨root, false⟩ : ChainStep)], step.terminal = false := by simp
      by_cases hne : below = []
      · subst hne
        exact shaped_of_none hbefore
      · refine hshaped.prepend hne hbefore ?_ rfl
        simp [reachedPath, passedPaths, hroot root hcollection]

/-- Wherever the root is, only the last step of a chain can be what the path names. -/
theorem not_terminal_of_chain {vpath : String} {steps : List ChainStep}
    (hsteps : h.chain vpath = .ok steps) : ∀ step ∈ steps.dropLast, step.terminal = false := by
  obtain ⟨-, root, below, -, hbelow, rfl⟩ := chain_eq_ok.mp hsteps
  have hterminal := (shaped_descend hbelow).1
  cases root with
  | none => exact hterminal
  | some root =>
    cases hsegments : Text.pathSegments vpath with
    | nil =>
      rw [hsegments, descend] at hbelow
      cases hbelow
      simp
    | cons segment segments =>
      by_cases hne : below = []
      · subst hne
        simp
      · intro step hm
        change step ∈ (⟨root, false⟩ :: below).dropLast at hm
        rw [List.dropLast_cons_of_ne_nil hne] at hm
        rcases List.mem_cons.mp hm with rfl | hm
        · rfl
        · exact hterminal step hm

/-! ## Names -/

/-- What follows from something that is no alias is that itself. -/
theorem follow_eq_ok_nil {fresh : List String} {c : Collection} {run : AliasRun}
    (hrun : h.follow fresh c = .ok run) (hnil : run.aliases = []) : run.target = some c := by
  rw [follow] at hrun
  split at hrun
  · split at hrun
    · split at hrun
      · cases hrun; cases hnil
      · split at hrun
        · cases hrun
        · cases hrun; cases hnil
        · split at hrun
          · cases hrun
          · cases hrun; cases hnil
    · cases hrun
  · cases hrun; rfl

/-- What a path arrives at knows the first alias of its last segment, and without aliases it is an
answer of the hierarchy as it stands. -/
theorem Arrives.origin {segments : List String} {parent : String} {run : AliasRun}
    {target : Collection} (harrives : h.Arrives segments parent run target) :
    (∀ a ∈ run.aliases.head?, target.origin = some a.path) ∧
      (run.aliases = [] → ∃ path, h.collection path = .ok (some target)) := by
  unfold Arrives at harrives
  split at harrives
  · obtain ⟨hnil, hroot⟩ := harrives
    exact ⟨by simp [hnil], fun _ => ⟨"/", hroot⟩⟩
  · obtain ⟨c, hc, hrun, hreached⟩ := harrives
    unfold AliasRun.reached at hreached
    obtain ⟨d, hd, heq⟩ := Option.map_eq_some_iff.mp hreached
    cases haliases : run.aliases with
    | nil =>
      rw [haliases] at heq
      rw [follow_eq_ok_nil hrun haliases] at hd
      obtain rfl := Option.some.inj hd
      obtain rfl := heq
      exact ⟨by simp, fun _ => ⟨_, hc⟩⟩
    | cons first others =>
      rw [haliases] at heq
      subst heq
      exact ⟨by simp, by simp⟩

/-! ## What is known of all answers -/

/-- What is known of the collections that a hierarchy answers with, by whatever alias they are
reached. -/
structure Answers (h : Hierarchy) (P : Collection → Prop) : Prop where
  collection : ∀ {path : String} {c : Collection}, h.collection path = .ok (some c) → P c
  children : ∀ {path : String} {cs : List Collection}, h.children path = .ok cs → ∀ c ∈ cs, P c
  origin : ∀ {c : Collection} (o : Option String), P c → P { c with origin := o }

theorem answers_true (h : Hierarchy) : h.Answers fun _ => True where
  collection _ := trivial
  children _ _ _ := trivial
  origin _ _ := trivial

variable {P : Collection → Prop}

/-- The collections of a run; the induction is on the paths that may still be entered. -/
theorem Answers.follow (hP : h.Answers P) {fresh : List String} {c : Collection} {run : AliasRun}
    (hc : P c) (hrun : h.follow fresh c = .ok run) :
    (∀ a ∈ run.aliases, P a) ∧ ∀ d ∈ run.target, P d := by
  induction hn : fresh.length using Nat.strongRecOn generalizing fresh c run with
  | ind n ih =>
    subst hn
    rw [Hierarchy.follow] at hrun
    split at hrun
    · split at hrun
      · rename_i hm
        split at hrun
        · cases hrun
          exact ⟨by simpa using hc, by simp⟩
        · split at hrun
          · cases hrun
          · cases hrun
            exact ⟨by simpa using hc, by simp⟩
          · rename_i d hd
            split at hrun
            · cases hrun
            · rename_i rest hrest
              cases hrun
              obtain ⟨haliases, htarget⟩ :=
                ih _ (length_without_lt hm) (hP.collection hd) hrest rfl
              exact ⟨List.forall_mem_cons.mpr ⟨hc, haliases⟩, htarget⟩
      · cases hrun
    · cases hrun
      exact ⟨by simp, by simpa using hc⟩

theorem Answers.reached (hP : h.Answers P) {run : AliasRun} {d : Collection}
    (htarget : ∀ c ∈ run.target, P c) (hd : AliasRun.reached run = some d) : P d := by
  obtain ⟨c, hc, rfl⟩ := Option.map_eq_some_iff.mp hd
  cases run.aliases with
  | nil => exact htarget c hc
  | cons first others => exact hP.origin _ (htarget c hc)

theorem Answers.descend (hP : h.Answers P) {parent : String} {segments : List String}
    {steps : List ChainStep} (hsteps : h.descend parent segments = .ok steps) :
    ∀ step ∈ steps, P step.collection := by
  induction segments generalizing parent steps with
  | nil =>
    rw [Hierarchy.descend] at hsteps
    cases hsteps
    simp
  | cons segment segments ih =>
    obtain ⟨-, rfl⟩ | ⟨c, run, hc, hrun, hreached⟩ := descend_cons_eq_ok.mp hsteps
    · simp
    obtain ⟨haliases, htarget⟩ := hP.follow (hP.collection hc) hrun
    have hpassed : ∀ step ∈ passedAliases run, P step.collection := by
      intro step hm
      obtain ⟨a, ha, rfl⟩ := List.mem_map.mp hm
      exact haliases a ha
    obtain ⟨-, rfl⟩ | ⟨d, rest, hd, hrest, rfl⟩ := hreached
    · exact hpassed
    · intro step hm
      rcases List.mem_append.mp hm with hm | hm
      · exact hpassed step hm
      · rcases List.mem_cons.mp hm with rfl | hm
        · exact hP.reached htarget hd
        · exact ih hrest step hm

theorem Answers.chain (hP : h.Answers P) {vpath : String} {steps : List ChainStep}
    (hsteps : h.chain vpath = .ok steps) : ∀ step ∈ steps, P step.collection := by
  obtain ⟨-, root, below, hroot, hbelow, rfl⟩ := chain_eq_ok.mp hsteps
  intro step hm
  rcases List.mem_append.mp hm with hm | hm
  · obtain ⟨c, hc, rfl⟩ := List.mem_map.mp hm
    exact hP.collection (hroot.trans (by rw [Option.mem_toList.mp hc]))
  · exact hP.descend hbelow step hm

end Hierarchy

/-! ## Stores -/

namespace Store

/-- The root is at its place. -/
theorem find?_root {s : Store} {root : Collection} (h : s.find? "/" = some root) :
    root.path = "/" := by
  have hkey : Text.withoutTrailing "/" = "/" := by decide
  unfold find? at h
  simp only [hkey] at h
  split at h
  · rename_i c hc
    cases h
    simpa using List.find?_some hc
  · cases h
    rfl

/-- What a store answers with is the root or was stored. -/
theorem find?_eq_some {s : Store} {path : String} {c : Collection} (h : s.find? path = some c) :
    c ∈ s.collections ∨ c = .plain "/" .folder := by
  unfold find? at h
  simp only at h
  split at h
  · rename_i d hd
    cases h
    exact .inl (List.mem_of_find?_eq_some hd)
  · split at h
    · cases h
      exact .inr rfl
    · cases h

/-- What is known of the stored collections and of the root is known of all answers. -/
theorem answers {s : Store} {P : Collection → Prop} (hstored : ∀ c ∈ s.collections, P c)
    (hroot : P (.plain "/" .folder))
    (horigin : ∀ {c : Collection} (o : Option String), P c → P { c with origin := o }) :
    s.hierarchy.Answers P where
  collection := by
    intro path c h
    rcases find?_eq_some (Except.ok.inj h) with hc | rfl
    · exact hstored c hc
    · exact hroot
  children := by
    intro path cs h c hc
    obtain rfl := Except.ok.inj h
    exact hstored c (List.mem_filter.mp hc).1
  origin := horigin

/-- The filter attached to the collection that is stored at a path. -/
def Attaches (s : Store) (path expression : String) : Prop :=
  ∃ c ∈ s.collections, c.path = path ∧ c.filter = some expression

/-- What is known of a collection that the store answers with: its path is known to the store, and
its filter is attached to a stored collection there. -/
structure Vouches (s : Store) (c : Collection) : Prop where
  path_mem : c.path ∈ s.paths
  attaches : ∀ {expression : String}, c.filter = some expression → s.Attaches c.path expression

theorem answers_vouches (s : Store) : s.hierarchy.Answers s.Vouches :=
  answers
    (fun c hc => ⟨List.mem_cons_of_mem _ (List.mem_map_of_mem hc), fun h => ⟨c, hc, rfl, h⟩⟩)
    ⟨List.mem_cons_self, nofun⟩ fun _ hc => ⟨hc.path_mem, hc.attaches⟩

theorem shaped_chain {s : Store} {vpath : String} {steps : List ChainStep}
    (hsteps : s.hierarchy.chain vpath = .ok steps) :
    s.hierarchy.Shaped (Text.pathSegments vpath) "/" steps :=
  Hierarchy.shaped_chain (fun _ hroot => find?_root (Except.ok.inj hroot)) hsteps

end Store

end CalendarQuery

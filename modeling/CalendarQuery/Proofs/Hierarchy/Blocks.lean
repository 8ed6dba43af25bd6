import CalendarQuery.Proofs.Hierarchy.Store
import Mathlib.Logic.Relation

/-!
# The blocks of a chain

In a store the chain of a path is the root and then one block for each segment that is found: the
collection at that name below where the block before ended, and while it is an alias the collection
that its target names. The chain fails only where the targets, from a collection that was found,
come back to an alias, and stops where a segment or a target is missing.

* `Store.Links`: an alias and what its target names; `Store.Circles` where the targets come back.
* `Store.Leads`: the aliases from a collection on, and the end of them.
* `Store.Blocks`: the runs of a list of names, with `Store.laid` for the steps.
* `Store.chain_blocks`: the chain of any absolute path.
-/

namespace CalendarQuery

/-- The collections of a run, the one it ends at included. -/
def Hierarchy.AliasRun.nodes (run : AliasRun) : List Collection :=
  run.aliases ++ (Hierarchy.AliasRun.reached run).toList

namespace Store

open Relation Hierarchy

variable (s : Store)

/-- The first collection is an alias whose target names the second. -/
def Links (c d : Collection) : Prop := c.isAlias = true ∧ c.target.bind s.find? = some d

/-- From the collection the targets lead to an alias, and from that back to it. -/
def CirclesAt (c a : Collection) : Prop := ReflTransGen s.Links c a ∧ TransGen s.Links a a

/-- From the collection the targets come back to an alias. -/
def Circles (c : Collection) : Prop := ∃ a, s.CirclesAt c a

/-- The aliases from a collection on, target by target, and what the last target names, which is no
alias; or nothing has that name. -/
inductive Leads : Collection → AliasRun → Prop
  | stop {c : Collection} (hc : c.isAlias = false) : Leads c ⟨[], some c⟩
  | missing {c : Collection} (hc : c.isAlias = true) (hnone : c.target.bind s.find? = none) :
    Leads c ⟨[c], none⟩
  | link {c d : Collection} {run : AliasRun} (hd : s.Links c d) (hrun : Leads d run) :
    Leads c ⟨c :: run.aliases, run.target⟩

/-- The runs for the names below `parent`, each from the collection found at its name below the end
of the run before. They stop where a name is missing, and behind a run without an end. -/
inductive Blocks : (parent : String) → (names : List String) → (runs : List AliasRun) → Prop
  | done (parent : String) : Blocks parent [] []
  | missing {parent name : String} (names : List String)
    (hc : s.find? (Text.joinPath parent name) = none) : Blocks parent (name :: names) []
  | dangling {parent name : String} (names : List String) {c : Collection} {run : AliasRun}
    (hc : s.find? (Text.joinPath parent name) = some c) (hrun : s.Leads c run)
    (hnone : run.target = none) : Blocks parent (name :: names) [run]
  | next {parent name : String} {names : List String} {c d : Collection} {run : AliasRun}
    {runs : List AliasRun} (hc : s.find? (Text.joinPath parent name) = some c)
    (hrun : s.Leads c run) (hd : run.target = some d) (hruns : Blocks d.path names runs) :
    Blocks parent (name :: names) (run :: runs)

/-- The collection is found at one of the names below `parent`, each below the end of the run from
the one before. -/
inductive Reaches : (parent : String) → (names : List String) → Collection → Prop
  | here {parent name : String} (names : List String) {c : Collection}
    (hc : s.find? (Text.joinPath parent name) = some c) : Reaches parent (name :: names) c
  | past {parent name : String} {names : List String} {b c d : Collection} {run : AliasRun}
    (hb : s.find? (Text.joinPath parent name) = some b) (hrun : s.Leads b run)
    (hd : run.target = some d) (hc : Reaches d.path names c) : Reaches parent (name :: names) c

/-- The steps of the runs for some names. The end of the run for the last name is what the path
names. -/
def laid : (names : List String) → (runs : List AliasRun) → List ChainStep
  | _ :: names, run :: runs =>
    passedAliases run ++ (AliasRun.reached run).toList.map (⟨·, names.isEmpty⟩) ++ laid names runs
  | _, _ => []

/-- There is a run for each name, and all of them have ends. -/
def Complete (names : List String) (runs : List AliasRun) : Prop :=
  runs.length = names.length ∧ ∀ run ∈ runs, run.target.isSome = true

variable {s} {c d : Collection} {run run' : AliasRun} {parent : String} {names : List String}
  {runs : List AliasRun}

/-! ## Runs and circles -/

theorem Links.unique {e : Collection} (hd : s.Links c d) (he : s.Links c e) : d = e :=
  Option.some.inj (hd.2.symm.trans he.2)

theorem Circles.exists_links (h : s.Circles c) : ∃ d, s.Links c d ∧ s.Circles d := by
  obtain ⟨a, hca, haa⟩ := h
  rcases hca.cases_head with rfl | ⟨d, hd, hda⟩
  · obtain ⟨d, hd, hdc⟩ := TransGen.head'_iff.mp haa
    exact ⟨d, hd, c, hdc, haa⟩
  · exact ⟨d, hd, a, hda, haa⟩

/-- Where the aliases come to an end, they do not come back. -/
theorem Leads.not_circles (h : s.Leads c run) : ¬s.Circles c := by
  induction h with
  | stop hc =>
    intro hcircle
    obtain ⟨d, hd, -⟩ := Circles.exists_links hcircle
    cases hc.symm.trans hd.1
  | missing _ hnone =>
    intro hcircle
    obtain ⟨d, hd, -⟩ := Circles.exists_links hcircle
    cases hnone.symm.trans hd.2
  | link hd _ ih =>
    intro hcircle
    obtain ⟨e, he, hcircle⟩ := Circles.exists_links hcircle
    obtain rfl := hd.unique he
    exact ih hcircle

theorem Leads.unique (h : s.Leads c run) (h' : s.Leads c run') : run = run' := by
  induction h generalizing run' with
  | stop hc =>
    cases h' with
    | stop _ => rfl
    | missing hc' _ => cases hc.symm.trans hc'
    | link hd _ => cases hc.symm.trans hd.1
  | missing hc hnone =>
    cases h' with
    | stop hc' => cases hc'.symm.trans hc
    | missing _ _ => rfl
    | link hd _ => cases hnone.symm.trans hd.2
  | link hd _ ih =>
    cases h' with
    | stop hc' => cases hc'.symm.trans hd.1
    | missing _ hnone => cases hnone.symm.trans hd.2
    | link he hrun => rw [hd.unique he] at ih; rw [ih hrun]

/-- The collections of a run: aliases, and at the end something that is none. -/
theorem Leads.kinds (h : s.Leads c run) :
    (∀ a ∈ run.aliases, a.isAlias = true) ∧ ∀ d ∈ run.target, d.isAlias = false := by
  induction h with
  | stop hc => exact ⟨by simp, by simpa using hc⟩
  | missing hc _ => exact ⟨by simpa using hc, by simp⟩
  | link hd _ ih => exact ⟨List.forall_mem_cons.mpr ⟨hd.1, ih.1⟩, ih.2⟩

/-- The store answers with the collection. -/
def Finds (s : Store) (c : Collection) : Prop := ∃ path, s.find? path = some c

theorem Links.finds (h : s.Links c d) : s.Finds d := by
  obtain ⟨path, -, hd⟩ := Option.bind_eq_some_iff.mp h.2
  exact ⟨path, hd⟩

/-- A store has one answer for each path. -/
theorem Finds.eq_of_path (hc : s.Finds c) (hd : s.Finds d) (hpath : c.path = d.path) : c = d := by
  obtain ⟨path, hc⟩ := hc
  obtain ⟨other, hd⟩ := hd
  have hkey : Text.withoutTrailing path = Text.withoutTrailing other :=
    (path_of_find? hc).symm.trans (hpath.trans (path_of_find? hd))
  have hsame : s.find? path = s.find? other := by rw [find?_eq, find?_eq, hkey]
  exact Option.some.inj (hc.symm.trans (hsame.trans hd))

/-- What all collections of a run have: those that the store answers with. -/
theorem Leads.finds (h : s.Leads c run) (hc : s.Finds c) :
    (∀ a ∈ run.aliases, s.Finds a) ∧ ∀ d ∈ run.target, s.Finds d := by
  induction h with
  | stop _ => exact ⟨by simp, by simpa using hc⟩
  | missing _ _ => exact ⟨by simpa using hc, by simp⟩
  | link hd _ ih =>
    obtain ⟨haliases, htarget⟩ := ih hd.finds
    exact ⟨List.forall_mem_cons.mpr ⟨hc, haliases⟩, htarget⟩

/-! ## Following aliases -/

theorem follow_hierarchy {fresh : List String} (hc : c.isAlias = true) (hm : c.path ∈ fresh) :
    s.hierarchy.follow fresh c = match c.target.bind s.find? with
      | none => .ok ⟨[c], none⟩
      | some d => (s.hierarchy.follow (without fresh c.path) d).map fun run =>
          ⟨c :: run.aliases, run.target⟩ := by
  rw [follow, if_pos hc, dif_pos hm]
  cases htarget : c.target with
  | none => rfl
  | some target =>
    have hd : s.hierarchy.collection target = .ok (s.find? target) := rfl
    simp only [hd, Option.bind_some]
    cases s.find? target with
    | none => rfl
    | some d => cases hrun : s.hierarchy.follow (without fresh c.path) d <;> simp [hrun, Except.map]

/-- Following aliases comes to the end of a run, or finds a circle. From the collections whose paths
may no longer be entered the targets lead to the present one, and the induction is on the paths that
may be. -/
theorem follow_settled {fresh : List String} (hc : s.Finds c)
    (hfresh : ∀ d, s.Finds d → d.path ∉ fresh → TransGen s.Links d c) :
    (∃ run, s.Leads c run ∧ s.hierarchy.follow fresh c = .ok run) ∨
      ∃ a, s.CirclesAt c a ∧ s.hierarchy.follow fresh c = .error (.aliasCycle a.path) := by
  induction hn : fresh.length using Nat.strongRecOn generalizing fresh c with
  | ind n ih =>
    subst hn
    by_cases halias : c.isAlias = true
    swap
    · rw [Bool.not_eq_true] at halias
      exact .inl ⟨_, .stop halias, follow_of_not_alias halias fresh⟩
    by_cases hm : c.path ∈ fresh
    swap
    · refine .inr ⟨c, ⟨.refl, hfresh c hc hm⟩, ?_⟩
      rw [follow, if_pos halias, dif_neg hm]
    rw [follow_hierarchy halias hm]
    cases htarget : c.target.bind s.find? with
    | none => exact .inl ⟨_, .missing halias htarget, rfl⟩
    | some d =>
      have hd : s.Links c d := ⟨halias, htarget⟩
      have hstale : ∀ e, s.Finds e → e.path ∉ without fresh c.path → TransGen s.Links e d := by
        intro e he hstale
        by_cases hmem : e.path ∈ fresh
        -- the path of the collection itself is the only one that is no longer fresh
        · have hpath : e.path = c.path := by
            by_contra hne
            exact hstale (mem_without.mpr ⟨hmem, hne⟩)
          rw [he.eq_of_path hc hpath]
          exact .single hd
        · exact (hfresh e he hmem).tail hd
      obtain ⟨run, hrun, hfollow⟩ | ⟨a, ⟨hda, haa⟩, hfollow⟩ :=
        ih _ (length_without_lt hm) hd.finds hstale rfl
      · exact .inl ⟨_, .link hd hrun, by simp only [hfollow]; rfl⟩
      · exact .inr ⟨a, ⟨hda.head hd, haa⟩, by simp only [hfollow]; rfl⟩

theorem follow_paths (hc : s.Finds c) :
    (∃ run, s.Leads c run ∧ s.hierarchy.follow s.paths c = .ok run) ∨
      ∃ a, s.CirclesAt c a ∧ s.hierarchy.follow s.paths c = .error (.aliasCycle a.path) := by
  refine follow_settled hc fun d hd hm => absurd ?_ hm
  obtain ⟨path, hd⟩ := hd
  exact find?_mem hd

/-! ## Going down -/

theorem path_of_reached (hd : run.target = some d) :
    ∃ e, AliasRun.reached run = some e ∧ e.path = d.path ∧ e.isAlias = d.isAlias ∧
      (d.origin = none → e.origin = run.aliases.head?.map Collection.path) := by
  unfold AliasRun.reached
  rw [hd]
  cases run.aliases with
  | nil => exact ⟨d, rfl, rfl, rfl, id⟩
  | cons first others => exact ⟨_, rfl, rfl, rfl, fun _ => rfl⟩

theorem reached_of_none (hnone : run.target = none) : AliasRun.reached run = none := by
  rw [AliasRun.reached, hnone]
  rfl

/-- Going down lays the blocks of the names, or finds a circle from one of the collections that are
found on the way. -/
theorem descend_settled (parent : String) (names : List String) :
    (∃ runs, s.Blocks parent names runs ∧
      s.hierarchy.descend parent names = .ok (laid names runs)) ∨
    ∃ c a, s.Reaches parent names c ∧ s.CirclesAt c a ∧
      s.hierarchy.descend parent names = .error (.aliasCycle a.path) := by
  induction names generalizing parent with
  | nil => exact .inl ⟨[], .done parent, rfl⟩
  | cons name names ih =>
    have hanswer : s.hierarchy.collection (Text.joinPath parent name) =
        .ok (s.find? (Text.joinPath parent name)) := rfl
    cases hc : s.find? (Text.joinPath parent name) with
    | none =>
      rw [hc] at hanswer
      exact .inl ⟨[], .missing names hc, descend_cons_eq_ok.mpr (.inl ⟨hanswer, rfl⟩)⟩
    | some c =>
      rw [hc] at hanswer
      obtain ⟨run, hrun, hfollow⟩ | ⟨a, hcircle, hfollow⟩ := follow_paths ⟨_, hc⟩
      swap
      · refine .inr ⟨c, a, .here names hc, hcircle, ?_⟩
        change s.hierarchy.follow s.hierarchy.paths c = _ at hfollow
        rw [descend]
        simp only [hanswer, hfollow]
      cases htarget : run.target with
      | none =>
        have hreached := reached_of_none htarget
        refine .inl ⟨[run], .dangling names hc hrun htarget, descend_cons_eq_ok.mpr (.inr ?_)⟩
        refine ⟨c, run, hanswer, hfollow, .inl ⟨hreached, ?_⟩⟩
        simp [laid, hreached]
      | some d =>
        obtain ⟨e, hreached, hpath, -⟩ := path_of_reached htarget
        obtain ⟨runs, hruns, hdescend⟩ | ⟨b, a, hb, hcircle, hdescend⟩ := ih d.path
        · refine .inl ⟨run :: runs, .next hc hrun htarget hruns, descend_cons_eq_ok.mpr (.inr ?_)⟩
          refine ⟨c, run, hanswer, hfollow, .inr ⟨e, _, hreached, hpath ▸ hdescend, ?_⟩⟩
          simp [laid, hreached]
        · refine .inr ⟨b, a, .past hc hrun htarget hb, hcircle, ?_⟩
          change s.hierarchy.follow s.hierarchy.paths c = _ at hfollow
          rw [descend]
          simp only [hanswer, hfollow, hreached, hpath, hdescend]

/-- Where the blocks are laid, there is no circle on the way. -/
theorem Blocks.not_circles (h : s.Blocks parent names runs) (hc : s.Reaches parent names c) :
    ¬s.Circles c := by
  induction h with
  | done parent => cases hc
  | missing names hnone =>
    cases hc with
    | here _ hc => cases hnone.symm.trans hc
    | past hb _ _ _ => cases hnone.symm.trans hb
  | dangling names hfound hrun hnone =>
    cases hc with
    | here _ hc =>
      obtain rfl := Option.some.inj (hfound.symm.trans hc)
      exact hrun.not_circles
    | past hb hrun' hd _ =>
      obtain rfl := Option.some.inj (hfound.symm.trans hb)
      rw [hrun.unique hrun', hd] at hnone
      cases hnone
  | next hfound hrun hd _ ih =>
    cases hc with
    | here _ hc =>
      obtain rfl := Option.some.inj (hfound.symm.trans hc)
      exact hrun.not_circles
    | past hb hrun' hd' hc =>
      obtain rfl := Option.some.inj (hfound.symm.trans hb)
      obtain rfl := hrun.unique hrun'
      obtain rfl := Option.some.inj (hd.symm.trans hd')
      exact ih hc

/-- The blocks of the names are determined. -/
theorem Blocks.unique {runs' : List AliasRun} (h : s.Blocks parent names runs)
    (h' : s.Blocks parent names runs') : runs = runs' := by
  induction h generalizing runs' with
  | done parent => cases h'; rfl
  | missing names hnone =>
    cases h' with
    | missing _ _ => rfl
    | dangling _ hc _ _ | next hc _ _ _ => cases hnone.symm.trans hc
  | dangling names hfound hrun hnone =>
    cases h' with
    | missing _ hnone' => cases hnone'.symm.trans hfound
    | dangling _ hc hrun' _ =>
      obtain rfl := Option.some.inj (hfound.symm.trans hc)
      rw [hrun.unique hrun']
    | next hc hrun' hd _ =>
      obtain rfl := Option.some.inj (hfound.symm.trans hc)
      rw [hrun.unique hrun', hd] at hnone
      cases hnone
  | next hfound hrun hd _ ih =>
    cases h' with
    | missing _ hnone => cases hnone.symm.trans hfound
    | dangling _ hc hrun' hnone =>
      obtain rfl := Option.some.inj (hfound.symm.trans hc)
      rw [← hrun.unique hrun', hd] at hnone
      cases hnone
    | next hc hrun' hd' hruns =>
      obtain rfl := Option.some.inj (hfound.symm.trans hc)
      obtain rfl := hrun.unique hrun'
      obtain rfl := Option.some.inj (hd.symm.trans hd')
      rw [ih hruns]

/-! ## The steps of blocks -/

theorem Blocks.collections (h : s.Blocks parent names runs) :
    (laid names runs).map ChainStep.collection = runs.flatMap AliasRun.nodes := by
  have hblock : ∀ (run : AliasRun) (last : Bool),
      (passedAliases run ++ (AliasRun.reached run).toList.map (ChainStep.mk · last)).map
        ChainStep.collection = AliasRun.nodes run := by
    intro run last
    rw [List.map_append, passedAliases, List.map_map, List.map_map, AliasRun.nodes]
    exact congrArg₂ (· ++ ·) (List.map_id run.aliases) (List.map_id _)
  induction h with
  | done parent => rfl
  | missing names hnone => rfl
  | dangling names _ _ _ =>
    rw [laid, List.map_append, hblock]
    cases names <;> rfl
  | next _ _ _ _ ih => rw [laid, List.map_append, hblock, ih, List.flatMap_cons]

/-- Either all names are found, and the last step alone is what the path names, or no step is. -/
theorem Blocks.terminal (h : s.Blocks parent names runs) (hne : names ≠ []) :
    (Complete names runs ∧ ∃ before d, laid names runs = before ++ [⟨d, true⟩] ∧
        d.isAlias = false ∧ ∀ step ∈ before, step.terminal = false) ∨
      (¬Complete names runs ∧ ∀ step ∈ laid names runs, step.terminal = false) := by
  induction h with
  | done parent => exact absurd rfl hne
  | missing names _ => exact .inr ⟨fun hall => by simp [Complete] at hall, by simp [laid]⟩
  | dangling names _ _ hnone =>
    refine .inr ⟨fun hall => ?_, fun step hm => ?_⟩
    · have hsome := hall.2 _ (List.mem_singleton_self _)
      rw [hnone] at hsome
      cases hsome
    · rw [laid, reached_of_none hnone] at hm
      cases names <;> exact not_terminal_of_mem_passedAliases (by simpa [laid] using hm)
  | @next parent name names c d run runs _ hrun hd hruns ih =>
    obtain ⟨e, hreached, -, hkind, -⟩ := path_of_reached hd
    have halias : e.isAlias = false := hkind.trans (hrun.kinds.2 d hd)
    have hcomplete : Complete (name :: names) (run :: runs) ↔ Complete names runs := by
      simp [Complete, hd]
    rw [hcomplete, laid, hreached, Option.toList_some, List.map_singleton]
    by_cases hnil : names = []
    · subst hnil
      cases hruns
      refine .inl ⟨⟨rfl, by simp⟩, passedAliases run, e, by simp [laid], halias, fun step hm => ?_⟩
      exact not_terminal_of_mem_passedAliases hm
    have hblock : ∀ step ∈ passedAliases run ++ [⟨e, names.isEmpty⟩], step.terminal = false := by
      intro step hm
      rcases List.mem_append.mp hm with hm | hm
      · exact not_terminal_of_mem_passedAliases hm
      · rw [List.mem_singleton.mp hm]
        exact List.isEmpty_eq_false_iff.mpr hnil
    obtain ⟨hall, before, last, hlaid, hlast, hbefore⟩ | ⟨hpart, hnone⟩ := ih hnil
    · refine .inl ⟨hall, passedAliases run ++ [⟨e, names.isEmpty⟩] ++ before, last, ?_, hlast, ?_⟩
      · rw [hlaid, List.append_assoc _ before]
      exact List.forall_mem_append.mpr ⟨hblock, hbefore⟩
    · exact .inr ⟨hpart, List.forall_mem_append.mpr ⟨hblock, hnone⟩⟩

/-- A step below a root is what the path names if and only if it is the last one and all names are
found. -/
theorem Blocks.terminal_iff (h : s.Blocks parent names runs) (hne : names ≠ []) (root : Collection)
    (i : ℕ) (step : ChainStep) (hi : (⟨root, false⟩ :: laid names runs)[i]? = some step) :
    (step.terminal = true ↔
      i + 1 = (⟨root, false⟩ :: laid names runs : List ChainStep).length ∧ Complete names runs) ∧
      (step.terminal = true → step.collection.isAlias = false) := by
  obtain ⟨hall, before, d, hlaid, hd, hbefore⟩ | ⟨hpart, hnone⟩ := h.terminal hne
  · rw [hlaid, ← List.cons_append] at hi ⊢
    have hbefore : ∀ step ∈ (⟨root, false⟩ :: before : List ChainStep), step.terminal = false :=
      List.forall_mem_cons.mpr ⟨rfl, hbefore⟩
    generalize (⟨root, false⟩ :: before : List ChainStep) = first at hi hbefore ⊢
    rw [List.length_append, List.length_singleton]
    rcases Nat.lt_or_ge i first.length with hlt | hge
    · rw [List.getElem?_append_left hlt] at hi
      have hfalse := hbefore step (List.mem_of_getElem? hi)
      rw [hfalse]
      exact ⟨iff_of_false (by simp) (by omega), by simp⟩
    · rw [List.getElem?_append_right hge, List.getElem?_singleton] at hi
      split at hi
      · cases hi
        exact ⟨iff_of_true rfl ⟨by omega, hall⟩, fun _ => hd⟩
      · cases hi
  · have hall : ∀ step ∈ (⟨root, false⟩ :: laid names runs : List ChainStep),
        step.terminal = false := List.forall_mem_cons.mpr ⟨rfl, hnone⟩
    rw [hall step (List.mem_of_getElem? hi)]
    exact ⟨iff_of_false (by simp) fun hall => hpart hall.2, by simp⟩

/-- The origins in the blocks of a store whose collections have none. -/
theorem Blocks.origins (h : s.Blocks parent names runs)
    (horigin : ∀ c, s.Finds c → c.origin = none) : ∀ run ∈ runs,
      (∀ a ∈ run.aliases, a.isAlias = true ∧ a.origin = none) ∧
      ∀ d ∈ AliasRun.reached run, d.isAlias = false ∧
        d.origin = run.aliases.head?.map Collection.path := by
  have hblock : ∀ {c run}, s.Finds c → s.Leads c run →
      (∀ a ∈ run.aliases, a.isAlias = true ∧ a.origin = none) ∧
      ∀ d ∈ AliasRun.reached run, d.isAlias = false ∧
        d.origin = run.aliases.head?.map Collection.path := by
    intro c run hc hrun
    obtain ⟨haliases, htarget⟩ := hrun.finds hc
    refine ⟨fun a ha => ⟨hrun.kinds.1 a ha, horigin a (haliases a ha)⟩, fun e he => ?_⟩
    cases hd : run.target with
    | none =>
      rw [reached_of_none hd] at he
      cases he
    | some d =>
      obtain ⟨e', hreached, -, hkind, hfirst⟩ := path_of_reached hd
      obtain rfl := Option.some.inj (hreached.symm.trans he)
      exact ⟨hkind.trans (hrun.kinds.2 d hd), hfirst (horigin d (htarget d hd))⟩
  induction h with
  | done parent => simp
  | missing names _ => simp
  | dangling names hc hrun _ => simpa using hblock ⟨_, hc⟩ hrun
  | next hc hrun _ _ ih => exact List.forall_mem_cons.mpr ⟨hblock ⟨_, hc⟩ hrun, ih⟩

/-! ## The chain -/

theorem chain_of_descend {vpath : String} {root : Collection} {below : List ChainStep}
    (habsolute : Text.isAbsolute vpath = true) (hroot : s.find? "/" = some root)
    (hbelow : s.hierarchy.descend "/" (Text.pathSegments vpath) = .ok below) :
    s.hierarchy.chain vpath = .ok (⟨root, (Text.pathSegments vpath).isEmpty⟩ :: below) :=
  chain_eq_ok.mpr ⟨habsolute, some root, below, congrArg Except.ok hroot, hbelow, rfl⟩

theorem chain_of_error {vpath : String} {cause : LookupError}
    (habsolute : Text.isAbsolute vpath = true)
    (hbelow : s.hierarchy.descend "/" (Text.pathSegments vpath) = .error cause) :
    s.hierarchy.chain vpath = .error cause := by
  have hroot : s.hierarchy.collection "/" = .ok (s.find? "/") := rfl
  rw [chain, if_pos habsolute]
  simp only [hroot, hbelow]

/-- A chain is the root and the blocks of its names, or there is a circle on the way. -/
theorem chain_settled {vpath : String} (habsolute : Text.isAbsolute vpath = true) :
    (∃ root runs, s.find? "/" = some root ∧ s.Blocks "/" (Text.pathSegments vpath) runs ∧
      s.hierarchy.chain vpath =
        .ok (⟨root, (Text.pathSegments vpath).isEmpty⟩ :: laid (Text.pathSegments vpath) runs)) ∨
    ∃ c a, s.Reaches "/" (Text.pathSegments vpath) c ∧ s.CirclesAt c a ∧
      s.hierarchy.chain vpath = .error (.aliasCycle a.path) := by
  obtain ⟨root, hroot⟩ := s.exists_root
  obtain ⟨runs, hruns, hbelow⟩ | ⟨c, a, hc, hcircle, hbelow⟩ :=
    s.descend_settled "/" (Text.pathSegments vpath)
  · exact .inl ⟨root, runs, hroot, hruns, chain_of_descend habsolute hroot hbelow⟩
  · exact .inr ⟨c, a, hc, hcircle, chain_of_error habsolute hbelow⟩

/-- The chain of an absolute path, in a store whose collections have no origins.

It fails if and only if the targets from a collection found on the way come back to an alias, and
then with such an alias. Otherwise it consists of the root and of the collections of the blocks of
the names. If there are names, then a step is what the path names if and only if it is the last one
and all names were found with an end, and then it is no alias. The ends of runs with aliases know
the first of these, and no other collection has an origin. The path counts only for its names. -/
theorem chain_blocks (s : Store) (horigin : ∀ c ∈ s.collections, c.origin = none) (vpath : String)
    (habsolute : Text.isAbsolute vpath = true) :
    let names := Text.pathSegments vpath
    ((∃ cause, s.hierarchy.chain vpath = .error cause) ↔
      ∃ c, s.Reaches "/" names c ∧ s.Circles c) ∧
    (∀ cause, s.hierarchy.chain vpath = .error cause →
      ∃ c a, s.Reaches "/" names c ∧ s.CirclesAt c a ∧ cause = .aliasCycle a.path) ∧
    (∀ steps, s.hierarchy.chain vpath = .ok steps →
      ∃ root runs, s.find? "/" = some root ∧ s.Blocks "/" names runs ∧
        steps.map ChainStep.collection = root :: runs.flatMap AliasRun.nodes ∧
        (names ≠ [] → ∀ i step, steps[i]? = some step →
          (step.terminal = true ↔ i + 1 = steps.length ∧ Complete names runs) ∧
          (step.terminal = true → step.collection.isAlias = false)) ∧
        root.origin = none ∧ ∀ run ∈ runs,
          (∀ a ∈ run.aliases, a.isAlias = true ∧ a.origin = none) ∧
          ∀ d ∈ AliasRun.reached run, d.isAlias = false ∧
            d.origin = run.aliases.head?.map Collection.path) ∧
    ∀ other, Text.isAbsolute other = true → Text.pathSegments other = names →
      s.hierarchy.chain other = s.hierarchy.chain vpath := by
  intro names
  have hfinds : ∀ c, s.Finds c → c.origin = none := by
    rintro c ⟨path, hc⟩
    rcases find?_eq_some hc with hc | rfl
    · exact horigin c hc
    · rfl
  refine ⟨?_, fun cause hcause => ?_, fun steps hsteps => ?_, fun other hother hsame => ?_⟩
  · obtain ⟨root, runs, -, hruns, hchain⟩ | ⟨c, a, hc, hcircle, hchain⟩ :=
      s.chain_settled habsolute
    · rw [hchain]
      exact iff_of_false (by simp) fun ⟨c, hc, hcircle⟩ => hruns.not_circles hc hcircle
    · exact iff_of_true ⟨_, hchain⟩ ⟨c, hc, a, hcircle⟩
  · obtain ⟨root, runs, -, -, hchain⟩ | ⟨c, a, hc, hcircle, hchain⟩ := s.chain_settled habsolute
    · cases hchain.symm.trans hcause
    · exact ⟨c, a, hc, hcircle, Except.error.inj (hcause.symm.trans hchain)⟩
  · obtain ⟨root, runs, hroot, hruns, hchain⟩ | ⟨c, a, -, -, hchain⟩ := s.chain_settled habsolute
    swap
    · cases hchain.symm.trans hsteps
    obtain rfl := Except.ok.inj (hchain.symm.trans hsteps)
    refine ⟨root, runs, hroot, hruns, ?_, fun hne => ?_, hfinds root ⟨_, hroot⟩,
      hruns.origins hfinds⟩
    · rw [List.map_cons, hruns.collections]
    · rw [List.isEmpty_eq_false_iff.mpr hne]
      exact hruns.terminal_iff hne root
  · rw [chain, chain, if_pos hother, if_pos habsolute, hsame]

/-! ## Aliases of aliases -/

/-- An alias of what is at the other path. -/
def relay (path target : String) : Collection :=
  { Collection.plain path .link with target := some target }

/-- A calendar behind two aliases, and two aliases of each other. -/
def relayStore : Store :=
  empty.offerAll [.plain "/c" .calendar, relay "/a" "/b", relay "/b" "/c", relay "/l" "/m",
    relay "/m" "/l"]

/-- The aliases of each other are reported, and the calendar knows the first of the others. -/
theorem chain_blocks_relay :
    (∃ cause, relayStore.hierarchy.chain "/l" = .error cause) ∧
    ∃ steps, relayStore.hierarchy.chain "/a" = .ok steps ∧
      steps.map ChainStep.collection = [.plain "/" .folder, relay "/a" "/b", relay "/b" "/c",
        { Collection.plain "/c" .calendar with origin := some "/a" }] := by
  have horigin : ∀ c ∈ relayStore.collections, c.origin = none := by decide
  have hlinks : relayStore.Links (relay "/l" "/m") (relay "/m" "/l") ∧
      relayStore.Links (relay "/m" "/l") (relay "/l" "/m") ∧
      relayStore.Links (relay "/a" "/b") (relay "/b" "/c") ∧
      relayStore.Links (relay "/b" "/c") (.plain "/c" .calendar) := by
    refine ⟨⟨rfl, ?_⟩, ⟨rfl, ?_⟩, ⟨rfl, ?_⟩, ⟨rfl, ?_⟩⟩ <;> decide
  obtain ⟨hlm, hml, hab, hbc⟩ := hlinks
  have hfound : relayStore.find? (Text.joinPath "/" "l") = some (relay "/l" "/m") ∧
      relayStore.find? (Text.joinPath "/" "a") = some (relay "/a" "/b") := by decide
  have hnames : Text.pathSegments "/l" = ["l"] ∧ Text.pathSegments "/a" = ["a"] := by decide
  constructor
  · refine (chain_blocks relayStore horigin "/l" (by decide)).1.mpr ⟨relay "/l" "/m", ?_, ?_⟩
    · rw [hnames.1]
      exact .here [] hfound.1
    · exact ⟨_, .refl, .head hlm (.single hml)⟩
  · have hruns : relayStore.Blocks "/" ["a"]
        [⟨[relay "/a" "/b", relay "/b" "/c"], some (.plain "/c" .calendar)⟩] :=
      .next hfound.2 (.link hab (.link hbc (.stop rfl))) rfl (.done _)
    have hchain := chain_blocks relayStore horigin "/a" (by decide)
    simp only [hnames.2] at hchain
    obtain ⟨hcircles, -, hblocks, -⟩ := hchain
    cases hsteps : relayStore.hierarchy.chain "/a" with
    | error cause =>
      obtain ⟨c, hc, hcircle⟩ := hcircles.mp ⟨cause, hsteps⟩
      exact absurd hcircle (hruns.not_circles hc)
    | ok steps =>
      obtain ⟨root, runs, hroot, hruns', hnodes, -⟩ := hblocks steps hsteps
      have hfolder : relayStore.find? "/" = some (.plain "/" .folder) := by decide
      obtain rfl := Option.some.inj (hroot.symm.trans hfolder)
      rw [← hruns.unique hruns'] at hnodes
      exact ⟨steps, rfl, hnodes⟩

end Store

end CalendarQuery

import CalendarQuery.Comparison.Compile
import CalendarQuery.Proofs.Comparison.Reading
import CalendarQuery.Proofs.Hierarchy.Chain
import CalendarQuery.Proofs.Judgment
import CalendarQuery.Proofs.Selection.Expansion

/-!
# Judgments about selections

What is judged of the answers of the hierarchy and of the compilations of attached filters holds of
expansions, walks, paths and comparisons.

* `Filter.Inherited`: what is true of well-formed filters and of groups of such filters.
* `Selection.Beside`: what is judged of a selection beside a family of others.
* `Selection.Beside.expand`, `Selection.Beside.walk`, `Selection.Beside.resolve`: what follows for
  collections and paths.
* `Selection.compileBy`: comparisons with a given meaning of views; `Selection.Beside.compileBy`.
-/

namespace CalendarQuery

/-- What holds of well-formed filters, and of a group if it holds of all that is grouped. -/
structure Filter.Inherited (F : Filter → Prop) : Prop where
  wellFormed : ∀ {f : Filter}, f.WellFormed → F f
  named : ∀ (name : String) {fs : List Filter}, fs ≠ [] → (∀ f ∈ fs, F f) → F (.and (some name) fs)
  combine : ∀ {op : LogicalOp} {fs : List Filter} {f : Filter}, (∀ g ∈ fs, F g) →
    Filter.combine op fs = some f → F f
  fold : ∀ {f g : Filter} (op : LogicalOp), F f → F g → F (Filter.fold f g op)
  view : ∀ (name : String) {f : Filter}, F f → F (.view name f)

theorem Filter.inherited_wellFormed : Filter.Inherited Filter.WellFormed where
  wellFormed := id
  named := Filter.wellFormed_named
  combine := Filter.wellFormed_combine
  fold op hf hg := hf.fold hg op
  view _ _ h := Filter.wellFormed_view.mpr h

theorem Filter.inherited_true : Filter.Inherited fun _ => True where
  wellFormed _ := trivial
  named _ _ _ _ := trivial
  combine _ _ := trivial
  fold _ _ _ := trivial
  view _ _ _ := trivial

namespace Selection

open Compilation

/-- Comparisons, with `view` for what views mean. -/
def compileBy (s : Selection) (view : String → Compilation Filter) :
    Comparison → Compilation Filter
  | .direct filter => pure filter
  | .views names => do together (← names.mapM view)
  | .virtualPaths paths => do together (← paths.mapM s.virtualPath)
  | .collectionPaths paths => do together (← paths.mapM s.collectionPath)
  | .categoryUids path operator uids => do together (← uids.mapM (s.categoryByUid path operator))
  | .categoryName operator name => s.categoryByName operator name

theorem compile_eq_compileBy (s : Selection) (c : Comparison) :
    s.compile c = s.compileBy s.viewFilter c := by
  cases c <;> rfl

/-- What is judged of a selection beside others: of the answers of its hierarchy, and of the filters
attached to collections where they are compiled. Of collections that are answered `P` is known, and
of paths that are asked for `Q`; `narrow` tells which way they are resolved. -/
structure Beside {ι : Type} (E : QueryError → Prop)
    (J : ∀ {α : Type}, (α → Prop) → Compilation α → (ι → Compilation α) → Prop)
    (F : Filter → Prop) (P : Collection → Prop) (Q : String → Prop) (narrow : Bool) (s : Selection)
    (t : ι → Selection) : Prop where
  judgment : Judgment E J
  inherited : Filter.Inherited F
  placeless : ∀ {cause : QueryError}, cause.isPlaceless = true → E cause
  explicit : ∀ i, (t i).explicit = s.explicit
  /-- Expansions may enter the same collections. -/
  paths : ∀ (i : ι) {c : Collection}, P c →
    (c.path ∈ s.hierarchy.paths ↔ c.path ∈ (t i).hierarchy.paths)
  collection : ∀ path, J (fun o => ∀ c ∈ o, P c) (Compilation.ofLookup (s.hierarchy.collection path))
    fun i => Compilation.ofLookup ((t i).hierarchy.collection path)
  children : ∀ path, J (fun cs => ∀ c ∈ cs, P c) (Compilation.ofLookup (s.hierarchy.children path))
    fun i => Compilation.ofLookup ((t i).hierarchy.children path)
  chain : ∀ vpath, J (fun steps => ∀ step ∈ steps, P step.collection)
    (Compilation.ofExcept ((s.hierarchy.chain vpath).mapError walkError))
    fun i => Compilation.ofExcept (((t i).hierarchy.chain vpath).mapError walkError)
  categoryNamed : ∀ name, J (fun _ => True)
    (Compilation.ofLookup (s.hierarchy.categoryNamed name))
    fun i => Compilation.ofLookup ((t i).hierarchy.categoryNamed name)
  categoryWithUid : ∀ uid, J (fun _ => True)
    (Compilation.ofLookup (s.hierarchy.categoryWithUid uid))
    fun i => Compilation.ofLookup ((t i).hierarchy.categoryWithUid uid)
  /-- A path that is being resolved already. -/
  resolving : ∀ {vpath : String}, vpath ∈ s.resolving →
    J F (throw (.aliasCycle vpath)) fun i => (t i).resolve vpath narrow
  unresolved : ∀ {vpath : String}, vpath ∉ s.resolving → ∀ i, vpath ∉ (t i).resolving
  /-- A filter attached along the chain of a path. -/
  chained : ∀ {vpath : String} {c : Collection}, vpath ∉ s.resolving → Q vpath → P c →
    J (fun o => ∀ f ∈ o, F f) (s.own narrow vpath c) fun i => (t i).own narrow vpath c
  /-- A filter attached to an alias that is expanded. -/
  linked : ∀ {c : Collection}, P c → c.kind = .link →
    J (fun o => ∀ f ∈ o, F f) (s.own narrow c.path c) fun i => (t i).own narrow c.path c

theorem isPlaceless_walkError (cause : LookupError) : (walkError cause).isPlaceless = true := by
  cases cause <;> rfl

section

variable {ι : Type} {E : QueryError → Prop}
  {J : ∀ {α : Type}, (α → Prop) → Compilation α → (ι → Compilation α) → Prop}
  {F : Filter → Prop} {P : Collection → Prop} {Q : String → Prop} {s : Selection}
  {t : ι → Selection} {narrow : Bool}

/-- The filter attached to a collection, if it counts. -/
theorem judge_own (hJ : Judgment E J) {vpath : String} {c : Collection}
    (h : ∀ {expression : String}, narrow = true → c.filter = some expression →
      J F (s.attached vpath c.path expression) fun i => (t i).attached vpath c.path expression) :
    J (fun o => ∀ f ∈ o, F f) (s.own narrow vpath c) fun i => (t i).own narrow vpath c := by
  cases hfilter : c.filter with
  | none =>
    simp only [own_none hfilter]
    exact hJ.pure (by simp)
  | some expression =>
    cases narrow with
    | false =>
      simp only [own_false]
      exact hJ.pure (by simp)
    | true =>
      simp only [own_some hfilter]
      exact hJ.map (h rfl hfilter) fun f hf => by simpa using hf

/-- Selections over one hierarchy. -/
theorem beside_of_hierarchy (hJ : Judgment E J) (hF : Filter.Inherited F)
    (hE : ∀ {cause : QueryError}, cause.isPlaceless = true → E cause)
    (hierarchy : ∀ i, (t i).hierarchy = s.hierarchy) (hexplicit : ∀ i, (t i).explicit = s.explicit)
    (hP : s.hierarchy.Answers P)
    (hresolving : ∀ {vpath : String}, vpath ∈ s.resolving →
      J F (throw (.aliasCycle vpath)) fun i => (t i).resolve vpath narrow)
    (hunresolved : ∀ {vpath : String}, vpath ∉ s.resolving → ∀ i, vpath ∉ (t i).resolving)
    (hchained : ∀ {vpath : String} {c : Collection} {expression : String}, narrow = true →
      vpath ∉ s.resolving → Q vpath → P c → c.filter = some expression →
      J F (s.attached vpath c.path expression) fun i => (t i).attached vpath c.path expression)
    (hlinked : ∀ {c : Collection} {expression : String}, narrow = true → P c → c.kind = .link →
      c.filter = some expression → J F (s.attached c.path c.path expression)
        fun i => (t i).attached c.path c.path expression) :
    Beside E J F P Q narrow s t where
  judgment := hJ
  inherited := hF
  placeless := hE
  explicit := hexplicit
  paths i _ _ := by rw [hierarchy]
  collection path := by
    simp only [hierarchy]
    exact hJ.ofLookup (fun o h c hc => hP.collection (h.trans (congrArg _ hc))) fun _ _ => hE rfl
  children path := by
    simp only [hierarchy]
    exact hJ.ofLookup (fun cs h => hP.children h) fun _ _ => hE rfl
  chain vpath := by
    simp only [hierarchy]
    exact hJ.ofExcept_mapError (fun _ h => hP.chain h) fun cause _ => hE (isPlaceless_walkError cause)
  categoryNamed name := by
    simp only [hierarchy]
    exact hJ.ofLookup (fun _ _ => trivial) fun _ _ => hE rfl
  categoryWithUid uid := by
    simp only [hierarchy]
    exact hJ.ofLookup (fun _ _ => trivial) fun _ _ => hE rfl
  resolving := hresolving
  unresolved := hunresolved
  chained hnew hpath hc := judge_own hJ fun hn hfilter => hchained hn hnew hpath hc hfilter
  linked hc hk := judge_own hJ fun hn hfilter => hlinked hn hc hk hfilter

end

namespace Beside

variable {ι : Type} {E : QueryError → Prop}
  {J : ∀ {α : Type}, (α → Prop) → Compilation α → (ι → Compilation α) → Prop}
  {F : Filter → Prop} {P : Collection → Prop} {Q : String → Prop} {s : Selection}
  {t : ι → Selection} {narrow : Bool}

/-! ## Expansions -/

theorem expandEach (hs : Beside E J F P Q narrow s t) {fresh : List String}
    {freshIn : ι → List String} {cs : List Collection}
    (h : ∀ c ∈ cs, J (fun o => ∀ f ∈ o, F f) (s.expand narrow fresh c)
      fun i => (t i).expand narrow (freshIn i) c) :
    J (fun fs => ∀ f ∈ fs, F f) (s.expandEach narrow fresh cs)
      fun i => (t i).expandEach narrow (freshIn i) cs := by
  induction cs with
  | nil =>
    simp only [Selection.expandEach]
    exact hs.judgment.pure (by simp)
  | cons c cs ih =>
    simp only [expandEach_cons]
    refine hs.judgment.bind (h c List.mem_cons_self) fun o ho => ?_
    refine hs.judgment.bind (ih fun d hd => h d (List.mem_cons_of_mem c hd)) fun fs hfs => ?_
    refine hs.judgment.pure fun f hf => ?_
    rcases List.mem_append.mp hf with hf | hf
    · exact ho f (by simpa using hf)
    · exact hfs f hf

theorem narrowed (hs : Beside E J F P Q narrow s t) {name : String} {own : Option Filter}
    {inner : Filter} (hown : ∀ f ∈ own, F f) (hinner : F inner) :
    F (Selection.narrowed name own inner) := by
  cases own with
  | none => exact hinner
  | some f =>
    refine hs.inherited.named name (by simp) fun g hg => ?_
    rcases List.mem_cons.mp hg with rfl | hg
    · exact hown g rfl
    · exact List.mem_singleton.mp hg ▸ hinner

/-- A collection that is expanded, where the same collections may be entered; the induction is on the
paths that may be. -/
theorem expand (hs : Beside E J F P Q narrow s t) (fresh : List String) (freshIn : ι → List String)
    (hfresh : ∀ (i : ι) {d : Collection}, P d → (d.path ∈ fresh ↔ d.path ∈ freshIn i))
    {c : Collection} (hc : P c) :
    J (fun o => ∀ f ∈ o, F f) (s.expand narrow fresh c)
      fun i => (t i).expand narrow (freshIn i) c := by
  induction hn : fresh.length using Nat.strongRecOn generalizing fresh freshIn c with
  | ind n ih =>
    subst hn
    by_cases hm : c.path ∈ fresh
    · have hmIn : ∀ i, c.path ∈ freshIn i := fun i => (hfresh i hc).mp hm
      have ih' : ∀ {d : Collection}, P d → J (fun o => ∀ f ∈ o, F f)
          (s.expand narrow (Hierarchy.without fresh c.path) d)
          fun i => (t i).expand narrow (Hierarchy.without (freshIn i) c.path) d :=
        fun hd => ih _ (Hierarchy.length_without_lt hm) _ _ (fun i {e} he => by
          rw [Hierarchy.mem_without, Hierarchy.mem_without, hfresh i he]) hd rfl
      have hself : F (.inCollection c.path) :=
        hs.inherited.wellFormed (Filter.wellFormed_inCollection c.path)
      cases hk : c.kind with
      | calendar =>
        simp only [expand_calendar, hm, hmIn, hk]
        exact hs.judgment.pure (by simpa using hself)
      | folder =>
        simp only [expand_folder, hm, hmIn, hk]
        refine hs.judgment.bind (hs.children c.path) fun children hchildren => ?_
        have hvisible : ∀ i, (t i).visible children = s.visible children := fun i => by
          rw [visible, visible, hs.explicit]
        simp only [hvisible]
        refine hs.judgment.bind (hs.expandEach fun d hd =>
          ih' (hchildren d (List.mem_filter.mp hd).1)) fun members hmembers => ?_
        refine hs.judgment.pure ?_
        rintro f ⟨⟩
        cases hany : Filter.any? members with
        | none => exact hself
        | some g => exact hs.inherited.combine hmembers hany
      | link =>
        simp only [expand_link, hm, hmIn, hk]
        refine hs.judgment.bind (hs.linked hc hk) fun own hown => ?_
        cases c.target with
        | none => exact hs.judgment.pure (by simp)
        | some target =>
          refine hs.judgment.bind (hs.collection target) fun o ho => ?_
          cases o with
          | none => exact hs.judgment.pure (by simp)
          | some d =>
            refine hs.judgment.bind (ih' (ho d rfl)) fun inner hinner => ?_
            refine hs.judgment.pure fun f hf => ?_
            obtain ⟨g, hg, rfl⟩ := Option.map_eq_some_iff.mp hf
            exact hs.narrowed hown (hinner g hg)
    · have hmIn : ∀ i, c.path ∉ freshIn i := fun i h => hm ((hfresh i hc).mpr h)
      simp only [expand_cycle, hm, hmIn, not_false_eq_true]
      exact hs.judgment.throw (hs.placeless rfl)

/-! ## Paths -/

theorem walk (hs : Beside E J F P Q narrow s t) {vpath : String} (hresolving : vpath ∉ s.resolving)
    (hpath : Q vpath) (seen : List String) {steps : List ChainStep}
    (hsteps : ∀ step ∈ steps, P step.collection) :
    J (fun r => (∀ f ∈ r.1, F f) ∧ ∀ c ∈ r.2, P c) (s.walk vpath narrow seen steps)
      fun i => (t i).walk vpath narrow seen steps := by
  induction steps generalizing seen with
  | nil =>
    simp only [Selection.walk]
    exact hs.judgment.pure (by simp)
  | cons step steps ih =>
    have hstep := hsteps step List.mem_cons_self
    simp only [Selection.walk]
    split
    · exact hs.judgment.throw (hs.placeless rfl)
    · refine hs.judgment.bind (hs.chained hresolving hpath hstep) fun own hown => ?_
      have hlist : ∀ f ∈ own.toList, F f := fun f hf => hown f (by simpa using hf)
      split
      · exact hs.judgment.pure ⟨hlist, by simpa using hstep⟩
      · refine hs.judgment.bind (ih _ fun d hd => hsteps d (List.mem_cons_of_mem _ hd))
          fun r hr => hs.judgment.pure ⟨fun f hf => ?_, hr.2⟩
        exact (List.mem_append.mp hf).elim (hlist f) (hr.1 f)

theorem resolve (hs : Beside E J F P Q narrow s t) {vpath : String} (hpath : Q vpath) :
    J F (s.resolve vpath narrow) fun i => (t i).resolve vpath narrow := by
  by_cases hresolving : vpath ∈ s.resolving
  · rw [Selection.resolve, if_pos hresolving]
    exact hs.resolving hresolving
  · have hunresolved := hs.unresolved hresolving
    simp only [Selection.resolve, if_neg hresolving, if_neg (hunresolved _)]
    refine hs.judgment.bind (hs.chain vpath) fun steps hsteps => ?_
    refine hs.judgment.bind (hs.walk hresolving hpath [] hsteps) fun r hr => ?_
    obtain ⟨filters, target⟩ := r
    cases target with
    | none => exact hs.judgment.throw (hs.placeless rfl)
    | some target =>
      refine hs.judgment.bind (hs.expand _ _ hs.paths (hr.2 target rfl)) fun o ho => ?_
      cases o with
      | none => exact hs.judgment.throw (hs.placeless rfl)
      | some f =>
        cases narrow with
        | false => exact hs.judgment.pure (ho f rfl)
        | true =>
          refine hs.judgment.pure (hs.inherited.named _ (by simp) fun g hg => ?_)
          rcases List.mem_append.mp hg with hg | hg
          · exact hr.1 g hg
          · exact List.mem_singleton.mp hg ▸ ho f rfl

/-! ## Comparisons -/

theorem together (hs : Beside E J F P Q narrow s t) {fs : List Filter} (h : ∀ f ∈ fs, F f) :
    J F (Selection.together fs) fun _ => Selection.together fs := by
  unfold Selection.together
  cases hall : Filter.all? fs with
  | none => exact hs.judgment.throw (hs.placeless rfl)
  | some f => exact hs.judgment.pure (hs.inherited.combine h hall)

theorem fits (hs : Beside E J F P Q narrow s t) {path : PropertyPath} (hpath : path.WellFormed)
    {operator : Comparator} (h : operator ∈ [Comparator.equal, .notEqual]) (text : String) :
    F (.comparison path operator (.text text)) :=
  hs.inherited.wellFormed (Filter.wellFormed_comparison hpath (Comparison.fits_text h text))

/-- What is judged of views holds of comparisons. -/
theorem compileBy (hs : ∀ narrow, Beside E J F P Q narrow s t) {view : String → Compilation Filter}
    {v : ι → String → Compilation Filter}
    (hview : ∀ name, J F (view name) fun i => v i name) {c : Comparison}
    (hc : c.Admissible Q) : J F (s.compileBy view c) fun i => (t i).compileBy (v i) c := by
  have ht := hs true
  cases c with
  | direct f => exact ht.judgment.pure (ht.inherited.wellFormed hc)
  | views names =>
    exact ht.judgment.bind (ht.judgment.mapM fun name _ => hview name) fun _ hfs => ht.together hfs
  | virtualPaths paths =>
    exact ht.judgment.bind (ht.judgment.mapM fun path hm => ht.resolve (hc path hm)) fun _ hfs =>
      ht.together hfs
  | collectionPaths paths =>
    exact ht.judgment.bind (ht.judgment.mapM fun path hm => (hs false).resolve (hc path hm))
      fun _ hfs => ht.together hfs
  | categoryUids path operator uids =>
    refine ht.judgment.bind (ht.judgment.mapM (W := F) fun uid _ => ?_) fun _ hfs =>
      ht.together hfs
    refine ht.judgment.bind (ht.categoryWithUid uid) fun o _ => ?_
    cases o with
    | none => exact ht.judgment.throw (ht.placeless rfl)
    | some category => exact ht.judgment.pure (ht.fits hc.1 hc.2 uid)
  | categoryName operator name =>
    refine ht.judgment.bind (ht.categoryNamed name) fun o _ => ?_
    cases o with
    | none => exact ht.judgment.throw (ht.placeless rfl)
    | some category =>
      have huid : (PropertyPath.pair .categories .uid).WellFormed :=
        ⟨by decide, by decide, .inl rfl, by decide⟩
      exact ht.judgment.pure (ht.fits huid hc category.uid)

/-! ## Views -/

/-- What compilations keep, views keep: a filter of a view is remembered, or is made of virtual paths
and remembered then. -/
theorem keeps_viewFilter {t : Unit → Selection}
    (hs : Beside E (fun V c _ => Keeps F E V c) F P Q true s t)
    (hview : ∀ {name : String} {view : View}, s.hierarchy.view name = .ok (some view) →
      ∀ path ∈ view.collections, Q path) (name : String) : Keeps F E F (s.viewFilter name) := by
  have hlookup : Keeps F E (fun o => s.hierarchy.view name = .ok o)
      (Compilation.ofLookup (s.hierarchy.view name)) :=
    hs.judgment.ofLookup (fun _ h => h) fun _ _ => hs.placeless rfl
  unfold viewFilter
  refine hlookup.bind fun o ho => ?_
  cases o with
  | none => exact Keeps.throw (hs.placeless rfl)
  | some view =>
    refine keeps_get.bind fun memos hmemos => ?_
    cases hmemo : memos.find? view.name with
    | some f => exact Keeps.pure (hs.inherited.view view.name (hmemos hmemo))
    | none =>
      have hmembers : Keeps F E (fun fs => ∀ f ∈ fs, F f) (view.collections.mapM s.virtualPath) :=
        hs.judgment.mapM (g := fun i => (t i).virtualPath) fun path hm =>
          hs.resolve (hview ho path hm)
      refine hmembers.bind fun fs hfs => ?_
      cases hall : Filter.all? fs with
      | none => exact Keeps.throw (hs.placeless rfl)
      | some f =>
        refine (keeps_remember view.name (hs.inherited.combine hfs hall)).bind fun g hg => ?_
        exact Keeps.pure (hs.inherited.view view.name hg)

end Beside

end Selection

end CalendarQuery

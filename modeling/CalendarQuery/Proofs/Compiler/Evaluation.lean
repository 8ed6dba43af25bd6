import CalendarQuery.Proofs.Compiler.CallStack
import CalendarQuery.Proofs.Compiler.Depth
import CalendarQuery.Proofs.Selection.Resolve

/-!
# Evaluation with bounded resources

The compiler as a recursion that counts: levels of attached filters, and collections entered by an
expansion. It knows the calls that are under way and looks at them before each call. Where fuel is
short or the calls are out of bounds it fails with a cause that is given to it; none of this ever
happens, and so it is the compiler.

* `Compiler.expandAlong`: an expansion along a trail of collections.
* `Compiler.resolveOn`, `Compiler.evaluate`: paths and expressions on top of a stack of calls.
* `Compiler.expandAlong_eq`, `Compiler.resolveOn_eq`, `Compiler.evaluate_eq`: what they do where
  there is fuel for the levels and the collections that are left.
* `Compiler.evaluate_eq_compile`: the fuel that is always enough.
-/

namespace CalendarQuery

namespace Selection

/-- The filter of a view, with `resolve` for its virtual paths. -/
def viewThrough (s : Selection) (resolve : String → Compilation Filter) (name : String) :
    Compilation Filter := do
  match ← Compilation.ofLookup (s.hierarchy.view name) with
  | none => throw (.unknownView name)
  | some view =>
    match (← get).find? view.name with
    | some filter => return .view view.name filter
    | none =>
      let members ← view.collections.mapM resolve
      match Filter.all? members with
      | none => throw (.emptyView view.name)
      | some filter => return .view view.name (← Compilation.remember view.name filter)

/-- A comparison as a filter, with `resolve` for paths, whether they are narrowed or not. -/
def compileThrough (s : Selection) (resolve : Bool → String → Compilation Filter) :
    Comparison → Compilation Filter
  | .direct filter => pure filter
  | .views names => do together (← names.mapM (s.viewThrough (resolve true)))
  | .virtualPaths paths => do together (← paths.mapM (resolve true))
  | .collectionPaths paths => do together (← paths.mapM (resolve false))
  | .categoryUids path operator uids => do
    together (← uids.mapM (s.categoryByUid path operator))
  | .categoryName operator name => s.categoryByName operator name

variable {s t : Selection} {narrow : Bool} {vpath : String}

theorem compileThrough_eq {resolve : Bool → String → Compilation Filter}
    (hierarchy : s.hierarchy = t.hierarchy)
    (h : ∀ narrow vpath, resolve narrow vpath = t.resolve vpath narrow) :
    s.compileThrough resolve = t.compile := by
  obtain rfl : resolve = fun narrow vpath => t.resolve vpath narrow :=
    funext fun narrow => funext (h narrow)
  have hview : s.viewThrough t.virtualPath = t.viewFilter := by
    funext name
    rw [viewThrough, hierarchy]
    rfl
  have hcategories : s.categoryByUid = t.categoryByUid ∧ s.categoryByName = t.categoryByName := by
    unfold categoryByUid categoryByName
    rw [hierarchy]
    exact ⟨rfl, rfl⟩
  funext c
  cases c with
  | views names => exact congrArg (fun view => do together (← names.mapM view)) hview
  | categoryUids path operator uids => rw [compileThrough, hcategories.1, compile]
  | categoryName operator name => rw [compileThrough, hcategories.2, compile]
  | _ => rfl

/-- Attached filters matter only where they are asked for. -/
theorem own_congr {c : Collection} (h : ∀ {expression : String}, narrow = true →
    c.filter = some expression → s.attached vpath c.path expression =
      t.attached vpath c.path expression) : s.own narrow vpath c = t.own narrow vpath c := by
  cases narrow with
  | false => rw [own_false, own_false]
  | true =>
    cases hfilter : c.filter with
    | none => rw [own_none hfilter, own_none hfilter]
    | some expression => rw [own_some hfilter, own_some hfilter, h rfl hfilter]

theorem walk_congr {steps : List ChainStep} (h : ∀ step ∈ steps,
    s.own narrow vpath step.collection = t.own narrow vpath step.collection)
    (seen : List String) : s.walk vpath narrow seen steps = t.walk vpath narrow seen steps := by
  induction steps generalizing seen with
  | nil => rw [walk, walk]
  | cons step steps ih =>
    obtain ⟨hstep, hsteps⟩ := List.forall_mem_cons.mp h
    simp only [walk, hstep, ih hsteps]

end Selection

namespace Compiler

open Compilation

section

variable (store : Store) (limits : Limits) (explicit : Bool) (spent : QueryError)

/-- A call on top of a stack, unless that is out of bounds. -/
def enter {α : Type} (stack : List Frame) (call : Compilation α) : Compilation α :=
  if WithinBounds store limits stack then call else throw spent

/-- How attached filters are compiled: on top of a stack, for the rest as in a selection. -/
abbrev Attached := List Frame → String → String → String → Compilation Filter

/-- A selection whose attached filters are compiled on top of a stack. -/
def selectionOn (resolving : List String) (attached : Attached) (stack : List Frame) : Selection :=
  ⟨store.hierarchy, explicit, resolving, attached stack⟩

/-- A collection as a filter, where those of the trail are being expanded. To enter a collection
takes fuel. -/
def expandAlong (depth : Nat) (resolving : List String) (attached : Attached) (narrow : Bool) :
    (fuel : Nat) → (stack : List Frame) → (trail : List String) → Collection →
      Compilation (Option Filter)
  | fuel, stack, trail, c =>
    if c.path ∈ trail then throw (.aliasCycle c.path)
    else match fuel with
      | 0 => throw spent
      | fuel + 1 =>
        let trail := c.path :: trail
        let stack := .member depth resolving narrow trail :: stack
        let s := selectionOn store explicit resolving attached stack
        enter store limits spent stack <| match c.kind with
          | .calendar => return some (.inCollection c.path)
          | .folder => do
            let children ← Compilation.ofLookup (store.hierarchy.children c.path)
            let members ← (s.visible children).mapM
              (expandAlong depth resolving attached narrow fuel stack trail)
            return some ((Filter.any? (members.filterMap id)).getD (.inCollection c.path))
          | .link => do
            let own ← s.own narrow c.path c
            match c.target with
            | none => return none
            | some target =>
              match ← Compilation.ofLookup (store.hierarchy.collection target) with
              | none => return none
              | some d =>
                let inner ← expandAlong depth resolving attached narrow fuel stack trail d
                return inner.map (Selection.narrowed c.path own)

/-- A path as a filter, on top of a stack; the expansion has the fuel. -/
def resolveOn (depth : Nat) (resolving : List String) (attached : Attached) (fuel : Nat)
    (stack : List Frame) (narrow : Bool) (vpath : String) : Compilation Filter :=
  let stack := .path depth resolving narrow vpath :: stack
  enter store limits spent stack <|
    if vpath ∈ resolving then throw (.aliasCycle vpath)
    else do
      let steps ← Compilation.ofExcept ((store.hierarchy.chain vpath).mapError Selection.walkError)
      match ← (selectionOn store explicit resolving attached stack).walk vpath narrow [] steps with
      | (_, none) => throw (.badVpath vpath)
      | (filters, some target) =>
        match ← expandAlong store limits explicit spent depth resolving attached narrow fuel stack []
          target with
        | none => throw (.badVpath vpath)
        | some filter =>
          if narrow then
            return .and (some (target.origin.getD target.path)) (filters ++ [filter])
          else return filter

/-- A filter attached to a collection, which `evaluate` compiles one level deeper. -/
def attachedOn (depth : Nat) (resolving : List String)
    (evaluate : List Frame → Nat → List String → String → Compilation Filter) : Attached :=
  fun stack vpath owner expression =>
    if limits.maxAliasDepth ≤ depth then throw (.aliasDepthExceeded limits.maxAliasDepth)
    else mapError (.nested owner) (evaluate stack (depth + 1) (vpath :: resolving) expression)

/-- An expression as a filter, on top of a stack. A level of attached filters takes fuel, and every
expansion has fuel of its own. -/
def evaluate (fuel : Nat) :
    (levels : Nat) → (stack : List Frame) → (depth : Nat) → (resolving : List String) → String →
      Compilation Filter
  | 0, _, _, _, _ => throw spent
  | levels + 1, stack, depth, resolving, text =>
    let stack := .expression depth resolving text :: stack
    let attached := attachedOn limits depth resolving (evaluate fuel levels)
    enter store limits spent stack <|
      if limits.admits text then
        parseExpression ((selectionOn store explicit resolving attached stack).compileThrough
          (resolveOn store limits explicit spent depth resolving attached fuel stack)) text
      else throw (.tooLong text.utf8ByteSize limits.maxExpressionLength)

end

variable {store : Store} {limits : Limits} {explicit : Bool} {spent : QueryError} {text : String}
  {depth : Nat} {resolving : List String} {attached : Attached}
  {compiled : String → String → String → Compilation Filter}

theorem enter_of_callStack {α : Type} {top : Frame} {below : List Frame}
    (h : CallStack store limits text top below) (call : Compilation α) :
    enter store limits spent (top :: below) call = call :=
  if_pos h.withinBounds

/-- Where a path or a collection asks for an attached filter on top of the calls that lead there, it
is compiled as in a selection. -/
structure CompilesAs (store : Store) (limits : Limits) (text : String) (depth : Nat)
    (resolving : List String) (attached : Attached)
    (compiled : String → String → String → Compilation Filter) : Prop where
  chained : ∀ {vpath owner expression : String} {below : List Frame},
    CallStack store limits text (.path depth resolving true vpath) below → vpath ∉ resolving →
    store.Attaches owner expression →
    attached (.path depth resolving true vpath :: below) vpath owner expression =
      compiled vpath owner expression
  linked : ∀ {owner expression : String} {trail : List String} {below : List Frame},
    CallStack store limits text (.member depth resolving true (owner :: trail)) below →
    store.Attaches owner expression →
    attached (.member depth resolving true (owner :: trail) :: below) owner owner expression =
      compiled owner owner expression

/-- To enter a collection that is not on the trail does what an expansion does there, if the
collections inside it are expanded alike. -/
theorem expandAlong_succ
    (hattached : CompilesAs store limits text depth resolving attached compiled) {narrow : Bool}
    {fuel : Nat} {stack : List Frame} {trail fresh : List String} {c : Collection}
    (hcall : CallStack store limits text (.member depth resolving narrow (c.path :: trail)) stack)
    (hnew : c.path ∉ trail) (hfresh : c.path ∈ fresh) (hc : store.Vouches c)
    (hinner : ∀ {d : Collection}, store.Vouches d →
      expandAlong store limits explicit spent depth resolving attached narrow fuel
        (.member depth resolving narrow (c.path :: trail) :: stack) (c.path :: trail) d =
      Selection.expand ⟨store.hierarchy, explicit, resolving, compiled⟩ narrow
        (Hierarchy.without fresh c.path) d) :
    expandAlong store limits explicit spent depth resolving attached narrow (fuel + 1) stack trail
        c =
      Selection.expand ⟨store.hierarchy, explicit, resolving, compiled⟩ narrow fresh c := by
  rw [expandAlong, if_neg hnew]
  simp only [enter_of_callStack hcall]
  cases hk : c.kind with
  | calendar =>
    rw [Selection.expand_calendar hfresh hk]
  | folder =>
    rw [Selection.expand_folder hfresh hk]
    have hchildren : Compilation.ofLookup (store.hierarchy.children c.path) =
        pure (store.below c.path) := rfl
    rw [hchildren, pure_bind, pure_bind, Selection.expandEach_eq_mapM, bind_map_left]
    refine congrArg (· >>= _) (mapM_congr fun d hd => hinner ?_)
    exact store.answers_vouches.children rfl d (List.mem_filter.mp hd).1
  | link =>
    rw [Selection.expand_link hfresh hk]
    have hown : (selectionOn store explicit resolving attached
        (.member depth resolving narrow (c.path :: trail) :: stack)).own narrow c.path c =
        Selection.own ⟨store.hierarchy, explicit, resolving, compiled⟩ narrow c.path c :=
      Selection.own_congr fun hnarrow hfilter => by
        subst hnarrow
        exact hattached.linked hcall (hc.attaches hfilter)
    rw [hown]
    refine bind_congr fun own => ?_
    cases c.target with
    | none => rfl
    | some target =>
      have htarget : Compilation.ofLookup (store.hierarchy.collection target) =
          pure (store.find? target) := rfl
      simp only [htarget, pure_bind]
      cases hd : store.find? target with
      | none => rfl
      | some d =>
        simp only
        rw [hinner (store.answers_vouches.collection (congrArg Except.ok hd))]

/-- An expansion along a trail is the expansion that may enter what is not on the trail, if there is
fuel for all of that. -/
theorem expandAlong_eq (hattached : CompilesAs store limits text depth resolving attached compiled)
    {narrow : Bool} {fuel : Nat} {stack : List Frame} {trail fresh : List String} {c : Collection}
    (hstack : ∀ path ∈ store.paths, path ∉ trail →
      CallStack store limits text (.member depth resolving narrow (path :: trail)) stack)
    (hfuel : store.paths.length ≤ fuel + trail.length)
    (hfresh : ∀ path, path ∈ fresh ↔ path ∈ store.paths ∧ path ∉ trail) (hc : store.Vouches c) :
    expandAlong store limits explicit spent depth resolving attached narrow fuel stack trail c =
      Selection.expand ⟨store.hierarchy, explicit, resolving, compiled⟩ narrow fresh c := by
  induction fuel generalizing stack trail fresh c with
  | zero =>
    rw [expandAlong]
    by_cases hm : c.path ∈ trail
    · rw [if_pos hm, Selection.expand_cycle fun h => ((hfresh c.path).mp h).2 hm]
    · -- the trail would hold all paths and one more
      have hlength := (hstack c.path hc.path_mem hm).length_trail_le
      rw [List.length_cons] at hlength
      omega
  | succ fuel ih =>
    by_cases hm : c.path ∈ trail
    · rw [expandAlong, if_pos hm, Selection.expand_cycle fun h => ((hfresh c.path).mp h).2 hm]
    · have hcall := hstack c.path hc.path_mem hm
      have hmfresh : c.path ∈ fresh := (hfresh c.path).mpr ⟨hc.path_mem, hm⟩
      refine expandAlong_succ hattached hcall hm hmfresh hc fun hd => ?_
      refine ih (fun path hpath hnew => .call hcall (.member hpath hnew)) ?_ (fun path => ?_) hd
      · rw [List.length_cons]
        omega
      · rw [Hierarchy.mem_without, hfresh, List.mem_cons, not_or]
        tauto

/-- A path is resolved as in a selection, if there is fuel for all collections. -/
theorem resolveOn_eq (hattached : CompilesAs store limits text depth resolving attached compiled)
    {narrow : Bool} {vpath : String} {fuel : Nat} {stack : List Frame}
    (hstack : CallStack store limits text (.path depth resolving narrow vpath) stack)
    (hfuel : store.paths.length ≤ fuel) :
    resolveOn store limits explicit spent depth resolving attached fuel stack narrow vpath =
      Selection.resolve ⟨store.hierarchy, explicit, resolving, compiled⟩ vpath narrow := by
  simp only [resolveOn, enter_of_callStack hstack, Selection.resolve]
  by_cases hnew : vpath ∈ resolving
  · rw [if_pos hnew, if_pos hnew]
  rw [if_neg hnew, if_neg hnew]
  cases hchain : store.hierarchy.chain vpath with
  | error cause => rfl
  | ok steps =>
    have hsteps := store.answers_vouches.chain hchain
    have hwalk : (selectionOn store explicit resolving attached
        (.path depth resolving narrow vpath :: stack)).walk vpath narrow [] steps =
        Selection.walk ⟨store.hierarchy, explicit, resolving, compiled⟩ vpath narrow [] steps := by
      refine Selection.walk_congr (fun step hm => Selection.own_congr fun hnarrow hfilter => ?_) []
      subst hnarrow
      exact hattached.chained hstack hnew ((hsteps step hm).attaches hfilter)
    simp only [Except.mapError, Compilation.ofExcept, pure_bind, hwalk]
    refine bind_congr_of_ok fun m found m' hfound => ?_
    obtain ⟨filters, _ | target⟩ := found
    · rfl
    · obtain ⟨passed, ⟨before, last, after, rfl, -, -, -, rfl⟩, -⟩ := Selection.walk_sound hfound
      have hexpand : expandAlong store limits explicit spent depth resolving attached narrow fuel
          (.path depth resolving narrow vpath :: stack) [] last.collection =
          Selection.expand ⟨store.hierarchy, explicit, resolving, compiled⟩ narrow store.paths
            last.collection :=
        expandAlong_eq hattached (fun path hpath _ => .call hstack (.target hnew hpath)) hfuel
          (fun path => by simp) (hsteps last (by simp))
      simp only [hexpand]
      rfl

/-- At the limit no level is left for attached filters. -/
theorem compilesAs_zero (hdepth : depth = limits.maxAliasDepth)
    (evaluate : List Frame → Nat → List String → String → Compilation Filter) :
    CompilesAs store limits text depth resolving (attachedOn limits depth resolving evaluate)
      (attachedWithin ⟨store.hierarchy, limits⟩ explicit 0 resolving) where
  chained _ _ _ := if_pos (Nat.le_of_eq hdepth.symm)
  linked _ _ := if_pos (Nat.le_of_eq hdepth.symm)

/-- Below the limit attached filters are compiled as expressions are, one level deeper. -/
theorem compilesAs_succ {levels : Nat} (hdepth : depth < limits.maxAliasDepth)
    {evaluate : List Frame → Nat → List String → String → Compilation Filter}
    (h : ∀ {stack : List Frame} {vpath expression : String},
      CallStack store limits text (.expression (depth + 1) (vpath :: resolving) expression) stack →
      evaluate stack (depth + 1) (vpath :: resolving) expression =
        compileWithin ⟨store.hierarchy, limits⟩ explicit levels (vpath :: resolving) expression) :
    CompilesAs store limits text depth resolving (attachedOn limits depth resolving evaluate)
      (attachedWithin ⟨store.hierarchy, limits⟩ explicit (levels + 1) resolving) where
  chained hstack hnew hattached := by
    rw [attachedOn, if_neg (Nat.not_le.mpr hdepth),
      h (.call hstack (.chained hnew hdepth hattached))]
    rfl
  linked hstack hattached := by
    rw [attachedOn, if_neg (Nat.not_le.mpr hdepth), h (.call hstack (.linked hdepth hattached))]
    rfl

/-- An expression is compiled as in its context if the filters attached to collections are. -/
theorem evaluate_of_compilesAs {fuel levels : Nat} {stack : List Frame} {expression : String}
    (hstack : CallStack store limits text (.expression depth resolving expression) stack)
    (hfuel : store.paths.length ≤ fuel)
    (hattached : CompilesAs store limits text depth resolving
      (attachedOn limits depth resolving (evaluate store limits explicit spent fuel levels))
      (attachedWithin ⟨store.hierarchy, limits⟩ explicit levels resolving)) :
    evaluate store limits explicit spent fuel (levels + 1) stack depth resolving expression =
      compileWithin ⟨store.hierarchy, limits⟩ explicit levels resolving expression := by
  have hcompile : (selectionOn store explicit resolving
      (attachedOn limits depth resolving (evaluate store limits explicit spent fuel levels))
      (.expression depth resolving expression :: stack)).compileThrough
        (resolveOn store limits explicit spent depth resolving
          (attachedOn limits depth resolving (evaluate store limits explicit spent fuel levels)) fuel
          (.expression depth resolving expression :: stack)) =
      (selection ⟨store.hierarchy, limits⟩ explicit levels resolving).compile :=
    Selection.compileThrough_eq rfl fun narrow vpath =>
      resolveOn_eq hattached (.call hstack (.path narrow vpath)) hfuel
  rw [evaluate, enter_of_callStack hstack, hcompile, compileWithin_eq]

/-- The induction is on the levels that are left. -/
theorem evaluate_eq {fuel levels : Nat} {stack : List Frame} {expression : String}
    (hstack : CallStack store limits text (.expression depth resolving expression) stack)
    (hfuel : store.paths.length ≤ fuel) (hlevels : depth + levels = limits.maxAliasDepth) :
    evaluate store limits explicit spent fuel (levels + 1) stack depth resolving expression =
      compileWithin ⟨store.hierarchy, limits⟩ explicit levels resolving expression := by
  induction levels generalizing stack depth resolving expression with
  | zero => exact evaluate_of_compilesAs hstack hfuel (compilesAs_zero hlevels _)
  | succ levels ih =>
    exact evaluate_of_compilesAs hstack hfuel (compilesAs_succ (by omega) fun h => ih h (by omega))

/-- Whatever a store and an expression refer to, calls are nested in each other within bounds: no
level of attached filters is deeper than the limit, and no collection is on a trail twice, so that a
trail is no longer than the list of stored collections and the root. A fuel of as many levels as
there are up to the limit, and of as many collections at each of them, is never used up; and no call
is out of bounds, whatever the cause with which evaluation would fail then. So there is always a
result, and it is the one of such an evaluation. -/
theorem evaluate_eq_compile (store : Store) (limits : Limits) (text : String) (explicit : Bool) :
    (∀ (top : Frame) (below : List Frame), CallStack store limits text top below →
      (∀ f ∈ top :: below, f.depth ≤ limits.maxAliasDepth ∧ f.trail.Nodup ∧
        (∀ path ∈ f.trail, path = "/" ∨ ∃ c ∈ store.collections, c.path = path) ∧
        f.trail.length ≤ store.collections.length + 1) ∧
      (top :: below).length ≤ (limits.maxAliasDepth + 1) * (store.collections.length + 3)) ∧
    (∀ spent, evaluate store limits explicit spent (store.collections.length + 1)
        (limits.maxAliasDepth + 1) [] 0 [] text =
      compile ⟨store.hierarchy, limits⟩ explicit text) ∧
    ∀ (spent : QueryError) (source : String) (m : Memos), ∃ m',
      (∃ f, (evaluate store limits explicit spent (store.collections.length + 1)
          (limits.maxAliasDepth + 1) [] 0 [] text).outcome m = (.ok f, m') ∧
        filter ⟨store.hierarchy, limits⟩ text explicit source m = (.filter f, m')) ∨
      ∃ cause, (evaluate store limits explicit spent (store.collections.length + 1)
          (limits.maxAliasDepth + 1) [] 0 [] text).outcome m = (.error cause, m') ∧
        filter ⟨store.hierarchy, limits⟩ text explicit source m = (.failed source cause, m') := by
  have hpaths : store.paths.length = store.collections.length + 1 := by
    rw [Store.paths, List.length_cons, List.length_map]
  have heval : ∀ spent, evaluate store limits explicit spent (store.collections.length + 1)
      (limits.maxAliasDepth + 1) [] 0 [] text = compile ⟨store.hierarchy, limits⟩ explicit text :=
    fun spent => evaluate_eq .root (Nat.le_of_eq hpaths) (Nat.zero_add _)
  refine ⟨fun top below hstack => ?_, heval, fun spent source m => ?_⟩
  · obtain ⟨hlength, hwithin⟩ := hstack.withinBounds
    refine ⟨fun f hf => ?_, hlength⟩
    obtain ⟨hdepth, hnodup, htrail, htraillength⟩ := hwithin f hf
    refine ⟨hdepth, hnodup, fun path hpath => ?_, htraillength⟩
    simpa [Store.paths] using htrail path hpath
  · rw [heval spent]
    rcases hr : (compile ⟨store.hierarchy, limits⟩ explicit text).outcome m with ⟨cause | f, m'⟩
    · exact ⟨m', .inr ⟨cause, rfl, filter_of_error hr⟩⟩
    · exact ⟨m', .inl ⟨f, rfl, filter_eq_filter.mpr hr⟩⟩

/-- Where an alias asks for the folder that it is in, the levels run out, but not the fuel. -/
theorem evaluate_cycleStore :
    (evaluate Store.cycleStore ⟨2, 8192, false⟩ false .invalidExpression 4 3 [] 0 []
      "vpath = \"/f\"").outcome .empty = (.error (Store.cycleCause 2 2), .empty) := by
  have hlength : "vpath = \"/f\"".utf8ByteSize ≤ 8192 := by decide
  have heval : evaluate Store.cycleStore ⟨2, 8192, false⟩ false .invalidExpression 4 3 [] 0 []
      "vpath = \"/f\"" = compile ⟨Store.cycleStore.hierarchy, ⟨2, 8192, false⟩⟩ false
        "vpath = \"/f\"" :=
    (evaluate_eq_compile Store.cycleStore ⟨2, 8192, false⟩ "vpath = \"/f\"" false).2.1
      .invalidExpression
  rw [heval]
  exact Store.outcome_compileWithin_cycle (decide_eq_true hlength) List.not_mem_nil .empty

end Compiler

end CalendarQuery

import CalendarQuery.Proofs.Compiler.CollectionPath
import CalendarQuery.Proofs.Compiler.Depth
import CalendarQuery.Proofs.Hierarchy.Failing

/-!
# Compiling while the store fails

Where a call of a hierarchy fails because of the store behind it, an expression that needs the
answer fails for that reason, however deep in attached filters. A filter that is obtained all the
same is the one that a working store gives.

* `Compilation.Degraded`: the judgment that a compilation does the same, or fails for want of the
  store.
* `Compiler.degraded_compileWithin`: what is compiled in whatever context.
* `Compiler.filter_degrades`: a whole call.
-/

namespace CalendarQuery

namespace Compilation

variable {α β : Type}

/-- The failure of the store is the cause, or the cause inside attached filters. -/
def IsBackend (cause : QueryError) : Prop := ∃ reason, cause.root = .lookup (.backend reason)

/-- The compilation `d` does what `c` does, whose value is of the kind `V`, or it fails because of
the store. -/
def Degraded (V : α → Prop) (c d : Compilation α) : Prop :=
  ∀ m, (d.outcome m = c.outcome m ∧ ∀ a m', c.outcome m = (.ok a, m') → V a) ∨
    ∃ cause m', d.outcome m = (.error cause, m') ∧ IsBackend cause

variable {V : α → Prop} {W : β → Prop} {c d : Compilation α}

theorem Degraded.self (c : Compilation α) : Degraded (fun _ => True) c c :=
  fun _ => .inl ⟨rfl, fun _ _ _ => trivial⟩

theorem Degraded.bind {f g : α → Compilation β} (hc : Degraded V c d)
    (hf : ∀ a, V a → Degraded W (f a) (g a)) : Degraded W (c >>= f) (d >>= g) := by
  intro m
  obtain ⟨hsame, hV⟩ | ⟨cause, m', hfails, hbackend⟩ := hc m
  · rcases hr : c.outcome m with ⟨cause | a, m₁⟩
    · rw [hr] at hsame
      rw [outcome_bind_of_error hsame, outcome_bind_of_error hr]
      exact .inl ⟨rfl, fun _ _ ha => by cases ha⟩
    · rw [hr] at hsame
      rw [outcome_bind_of_ok hsame, outcome_bind_of_ok hr]
      exact hf a (hV a m₁ hr) m₁
  · exact .inr ⟨cause, m', outcome_bind_of_error hfails, hbackend⟩

theorem judgment_degraded : Judgment (ι := Unit) (fun _ => True)
    fun V c d => Degraded V c (d ()) where
  pure h m := .inl ⟨rfl, fun _ _ ha => (pure_eq_ok.mp ha).1 ▸ h⟩
  throw _ m := .inl ⟨rfl, fun _ _ ha => by cases ha⟩
  bind := Degraded.bind

/-- The failure of a store inside an attached filter is still one. -/
theorem Degraded.nested (h : Degraded V c d) (owner : String) :
    Degraded V (mapError (.nested owner) c) (mapError (.nested owner) d) := by
  intro m
  obtain ⟨hsame, hV⟩ | ⟨cause, m', hfails, hbackend⟩ := h m
  · refine .inl ⟨by rw [outcome_mapError, outcome_mapError, hsame], fun a m' ha => ?_⟩
    exact hV a m' (mapError_eq_ok.mp ha)
  · exact .inr ⟨.nested owner cause, m', by rw [outcome_mapError, hfails]; rfl, hbackend⟩

/-- An answer, or a failure of the store. -/
theorem degraded_ofExcept {expected answer : Except LookupError α}
    {g : LookupError → QueryError} (hg : ∀ reason, IsBackend (g (.backend reason)))
    (h : Hierarchy.OrFails expected answer)
    (hV : ∀ a, expected = .ok a → answer = .ok a → V a) :
    Degraded V (ofExcept (expected.mapError g)) (ofExcept (answer.mapError g)) := by
  intro m
  obtain ⟨reason, hfails⟩ | ⟨cause, hexpected, hanswer⟩ | ⟨a, hexpected, hanswer⟩ := h.cases
  · exact .inr ⟨_, m, by rw [hfails]; rfl, hg reason⟩
  · rw [hexpected, hanswer]
    exact .inl ⟨rfl, fun _ _ ha => by cases ha⟩
  · rw [hexpected, hanswer]
    refine .inl ⟨rfl, fun b m' hb => ?_⟩
    obtain ⟨hab, -⟩ := ofExcept_eq_ok.mp hb
    exact Except.ok.inj hab ▸ hV a hexpected hanswer

theorem ofLookup_eq_ofExcept (r : Except LookupError α) :
    ofLookup r = ofExcept (r.mapError .lookup) := by
  cases r <;> rfl

theorem degraded_ofLookup {expected answer : Except LookupError α}
    (h : Hierarchy.OrFails expected answer)
    (hV : ∀ a, expected = .ok a → answer = .ok a → V a) :
    Degraded V (ofLookup expected) (ofLookup answer) := by
  rw [ofLookup_eq_ofExcept, ofLookup_eq_ofExcept]
  exact degraded_ofExcept (fun reason => ⟨reason, rfl⟩) h hV

end Compilation

namespace Compiler

open Compilation Hierarchy

variable {h h' : Hierarchy} {limits : Limits} {explicit : Bool} {levels : Nat}
  {resolving : List String} {text : String}

/-- A selection beside one over the hierarchy that degrades, given its attached filters. -/
theorem beside_of_degrades (hd : h.Degrades h')
    (hattached : ∀ vpath owner expression, Degraded (fun _ => True)
      (attachedWithin ⟨h, limits⟩ explicit levels resolving vpath owner expression)
      (attachedWithin ⟨h', limits⟩ explicit levels resolving vpath owner expression))
    (narrow : Bool) :
    let s := selection ⟨h, limits⟩ explicit levels resolving
    let t := selection ⟨h', limits⟩ explicit levels resolving
    Selection.Beside (fun _ => True) (fun V c (d : Unit → _) => Degraded V c (d ()))
      (fun _ => True) (Shared h h') (fun _ => True) narrow s fun _ => t where
  judgment := judgment_degraded
  inherited := Filter.inherited_true
  placeless _ := trivial
  explicit _ := rfl
  paths _ _ hc := iff_of_true hc.1 hc.2
  collection path := degraded_ofLookup (hd.collection path) fun o hexpected hanswer c hc => by
    obtain rfl : o = some c := hc
    exact ⟨h.collection_mem hexpected, h'.collection_mem hanswer⟩
  children path := degraded_ofLookup (hd.children path) fun cs hexpected hanswer c hc =>
    ⟨h.children_mem hexpected hc, h'.children_mem hanswer hc⟩
  chain vpath := degraded_ofExcept (fun reason => ⟨reason, rfl⟩) (hd.chain vpath)
    fun steps hexpected hanswer step hm =>
      ⟨h.answers_paths.chain hexpected step hm, h'.answers_paths.chain hanswer step hm⟩
  categoryNamed name := degraded_ofLookup (hd.categoryNamed name) fun _ _ _ => trivial
  categoryWithUid uid := degraded_ofLookup (hd.categoryWithUid uid) fun _ _ _ => trivial
  resolving {vpath} hm := by
    have hm' : vpath ∈ (selection ⟨h', limits⟩ explicit levels resolving).resolving := hm
    simp only [Selection.resolve_of_resolving hm']
    exact Degraded.self _
  unresolved hm _ := hm
  chained _ _ _ := Selection.judge_own
    (t := fun _ => selection ⟨h', limits⟩ explicit levels resolving) judgment_degraded
    fun _ _ => hattached _ _ _
  linked _ _ := Selection.judge_own
    (t := fun _ => selection ⟨h', limits⟩ explicit levels resolving) judgment_degraded
    fun _ _ => hattached _ _ _

/-- A view is remembered or made of its members, as it is where the store works. -/
theorem degraded_viewFilter (hd : h.Degrades h')
    (hattached : ∀ vpath owner expression, Degraded (fun _ => True)
      (attachedWithin ⟨h, limits⟩ explicit levels resolving vpath owner expression)
      (attachedWithin ⟨h', limits⟩ explicit levels resolving vpath owner expression))
    (name : String) :
    Degraded (fun _ => True)
      ((selection ⟨h, limits⟩ explicit levels resolving).viewFilter name)
      ((selection ⟨h', limits⟩ explicit levels resolving).viewFilter name) := by
  have hs := beside_of_degrades hd hattached true
  have hview : Degraded (fun _ => True) (ofLookup (h.view name)) (ofLookup (h'.view name)) :=
    degraded_ofLookup (hd.view name) fun _ _ _ => trivial
  unfold Selection.viewFilter
  refine hview.bind fun o _ => ?_
  cases o with
  | none => exact Degraded.self _
  | some view =>
    refine (Degraded.self get).bind fun memos _ => ?_
    cases memos.find? view.name with
    | some f => exact Degraded.self _
    | none =>
      have hmembers : Degraded (fun fs => ∀ f ∈ fs, True)
          (view.collections.mapM (selection ⟨h, limits⟩ explicit levels resolving).virtualPath)
          (view.collections.mapM (selection ⟨h', limits⟩ explicit levels resolving).virtualPath) :=
        judgment_degraded.mapM
          (g := fun _ => (selection ⟨h', limits⟩ explicit levels resolving).virtualPath)
          fun _ _ => hs.resolve trivial
      exact hmembers.bind fun fs _ => Degraded.self _

/-- One level of attached filters, given the levels below it. -/
theorem degraded_of_attached (hd : h.Degrades h')
    (hattached : ∀ vpath owner expression, Degraded (fun _ => True)
      (attachedWithin ⟨h, limits⟩ explicit levels resolving vpath owner expression)
      (attachedWithin ⟨h', limits⟩ explicit levels resolving vpath owner expression)) :
    Degraded (fun _ => True) (compileWithin ⟨h, limits⟩ explicit levels resolving text)
      (compileWithin ⟨h', limits⟩ explicit levels resolving text) := by
  let t := selection ⟨h', limits⟩ explicit levels resolving
  have hcompile : t.compile = t.compileBy t.viewFilter := funext t.compile_eq_compileBy
  have hother : compileWithin ⟨h', limits⟩ explicit levels resolving text =
      if limits.admits text then parseExpression (t.compileBy t.viewFilter) text
      else throw (.tooLong text.utf8ByteSize limits.maxExpressionLength) := by
    rw [compileWithin_eq, ← hcompile]
  rw [hother]
  exact judge_compileWithin (v := fun _ : Unit => t.viewFilter) (beside_of_degrades hd hattached)
    (fun _ => trivial) (degraded_viewFilter hd hattached) (Reading.quoting_ofString text)

/-- What is compiled over a hierarchy that degrades, in whatever context. -/
theorem degraded_compileWithin (hd : h.Degrades h') :
    Degraded (fun _ => True) (compileWithin ⟨h, limits⟩ explicit levels resolving text)
      (compileWithin ⟨h', limits⟩ explicit levels resolving text) := by
  induction levels generalizing resolving text with
  | zero => exact degraded_of_attached hd fun _ _ _ => Degraded.self _
  | succ levels ih => exact degraded_of_attached hd fun _ owner _ => ih.nested owner

/-! ## Calls -/

/-- A call over a hierarchy whose store fails has the same outcome and leaves the same memos as one
over a hierarchy whose store works, or it fails because of the store, perhaps inside attached filters.
So a filter that it gives is the right one. -/
theorem filter_degrades (h h' : Hierarchy) (hd : h.Degrades h') (limits : Limits) (explicit : Bool)
    (text source : String) (m : Memos) :
    (filter ⟨h', limits⟩ text explicit source m = filter ⟨h, limits⟩ text explicit source m ∨
      ∃ cause m', filter ⟨h', limits⟩ text explicit source m = (.failed source cause, m') ∧
        IsBackend cause) ∧
    ∀ f m', filter ⟨h', limits⟩ text explicit source m = (.filter f, m') →
      filter ⟨h, limits⟩ text explicit source m = (.filter f, m') := by
  have hcall : filter ⟨h', limits⟩ text explicit source m =
      filter ⟨h, limits⟩ text explicit source m ∨
      ∃ cause m', filter ⟨h', limits⟩ text explicit source m = (.failed source cause, m') ∧
        IsBackend cause := by
    have hcompile : Degraded (fun _ => True) (compile ⟨h, limits⟩ explicit text)
        (compile ⟨h', limits⟩ explicit text) := degraded_compileWithin hd
    obtain ⟨hsame, -⟩ | ⟨cause, m', hfails, hbackend⟩ := hcompile m
    · refine .inl ?_
      unfold filter
      rw [hsame]
    · exact .inr ⟨cause, m', filter_of_error hfails, hbackend⟩
  refine ⟨hcall, fun f m' hf => ?_⟩
  obtain hsame | ⟨cause, m₁, hfails, -⟩ := hcall
  · exact hsame ▸ hf
  · cases hfails.symm.trans hf

/-- The office, whose folder does not list its calendars. -/
def unlistedOffice : Hierarchy := officeStore.hierarchy.withFaults ⟨["children:/f"], [], []⟩

/-- The folder is not taken for an empty one. -/
theorem filter_unlistedOffice :
    filter ⟨unlistedOffice, .standard⟩ (Filter.inCollection "/f").text false "" .empty =
      (.failed "" (.lookup (.backend "children:/f")), .empty) := by
  let s := selection ⟨unlistedOffice, .standard⟩ false 16 []
  have hroot : unlistedOffice.collection "/" = .ok (some (.plain "/" .folder)) := by decide
  have hfolder : unlistedOffice.collection (Text.joinPath "/" "f") =
      .ok (some (.plain "/f" .folder)) := by decide
  have hends : s.hierarchy.EndsAt "/f" (.plain "/f" .folder) :=
    ⟨_, Selection.chain_single (by decide) (by decide) hroot hfolder rfl, ⟨rfl, rfl⟩, by decide⟩
  have hchildren : s.hierarchy.children "/f" = .error (.backend "children:/f") := by decide
  have hfresh : "/f" ∈ s.hierarchy.paths := by decide
  have hexpand : (s.expand false s.hierarchy.paths (.plain "/f" .folder)).outcome .empty =
      (.error (.lookup (.backend "children:/f")), .empty) := by
    rw [Selection.expand_folder (c := .plain "/f" .folder) hfresh rfl]
    exact outcome_bind_of_error (congrArg (fun r => (ofLookup r).outcome .empty) hchildren)
  refine filter_of_error ?_
  rw [outcome_compile_of_asks (by decide) (asks_text "/f")]
  refine (Selection.resolve_false_of_endsAt List.not_mem_nil hends .empty).trans ?_
  exact outcome_bind_of_error hexpand

/-- The theorem for the folder of the office. -/
theorem filter_degrades_unlistedOffice :
    officeStore.hierarchy.Degrades unlistedOffice ∧
    (filter ⟨unlistedOffice, .standard⟩ (Filter.inCollection "/f").text false "" .empty =
        filter officeCompiler (Filter.inCollection "/f").text false "" .empty ∨
      ∃ cause m', filter ⟨unlistedOffice, .standard⟩ (Filter.inCollection "/f").text false "" .empty =
        (.failed "" cause, m') ∧ IsBackend cause) ∧
    filter ⟨unlistedOffice, .standard⟩ (Filter.inCollection "/f").text false "" .empty =
      (.failed "" (.lookup (.backend "children:/f")), .empty) := by
  have hd : officeStore.hierarchy.Degrades unlistedOffice := degrades_withFaults _ _
  exact ⟨hd, (filter_degrades officeStore.hierarchy unlistedOffice hd .standard false _ "" .empty).1,
    filter_unlistedOffice⟩

end Compiler

end CalendarQuery

import CalendarQuery.Proofs.Selection.Judgment

/-!
# What selecting remembers

Resolving a path touches the memos only where it compiles an attached filter, and a view adds to them
where its filter is computed.

* `Selection.beside_gives`: what is closed under sequencing follows from the attached filters.
* `Selection.still_collectionPath`: a collection path has nothing to do with memos.
* `Selection.viewFilter_of_memo`, `Selection.viewFilter_of_members`: a view that is remembered, and one
  that is not.
* `Selection.fills_viewFilter`: what a view remembers.
-/

namespace CalendarQuery.Selection

open Compilation

variable {Q : ∀ {α : Type}, Compilation α → Prop} {s : Selection} {narrow : Bool}
  {P : String → Filter → Prop}

/-- What holds of the attached filters, if they count. -/
theorem beside_gives (hQ : Closed Q)
    (h : narrow = true → ∀ vpath owner expression, Q (s.attached vpath owner expression)) :
    Beside (fun _ => True) (fun V c _ => Gives Q V c) (fun _ => True) (fun _ => True)
      (fun _ => True) narrow s fun _ : Unit => s :=
  beside_of_hierarchy (judgment_gives hQ) Filter.inherited_true (fun _ => trivial) (fun _ => rfl)
    (fun _ => rfl) s.hierarchy.answers_true (fun _ => gives_throw hQ _) (fun h _ => h)
    (fun hn _ _ _ _ => gives_true (h hn _ _ _)) (fun hn _ _ _ => gives_true (h hn _ _ _))

/-- A collection path has no use for memos. -/
theorem still_collectionPath (s : Selection) (path : String) : Still (s.collectionPath path) := by
  have hbare : false = true → ∀ vpath owner expression,
      Still (s.attached vpath owner expression) := fun h => by cases h
  exact ((beside_gives still_closed hbare).resolve trivial).1

/-! ## Views -/

/-- The filter of a view is what is remembered for it in the end. -/
theorem viewFilter_eq_ok {name : String} {m m' : Memos} {f : Filter}
    (h : (s.viewFilter name).outcome m = (.ok f, m')) :
    ∃ view inner, s.hierarchy.view name = .ok (some view) ∧ f = .view view.name inner ∧
      m'.find? view.name = some inner := by
  unfold viewFilter at h
  obtain ⟨found, m₁, h₁, h⟩ := bind_eq_ok.mp h
  obtain ⟨hfound, rfl⟩ := ofLookup_eq_ok.mp h₁
  cases found with
  | none => cases h
  | some view =>
    simp only at h
    rw [outcome_bind_of_ok (outcome_get m)] at h
    cases hmemo : m.find? view.name with
    | some inner =>
      simp only [hmemo] at h
      obtain ⟨rfl, rfl⟩ := Compilation.pure_eq_ok.mp h
      exact ⟨view, inner, hfound, rfl, hmemo⟩
    | none =>
      simp only [hmemo] at h
      obtain ⟨members, m₂, h₂, h⟩ := bind_eq_ok.mp h
      cases hall : Filter.all? members with
      | none => rw [hall] at h; cases h
      | some g =>
        rw [hall] at h
        simp only at h
        rw [outcome_bind_of_ok (outcome_remember view.name g m₂)] at h
        obtain ⟨rfl, rfl⟩ := Compilation.pure_eq_ok.mp h
        exact ⟨view, _, hfound, rfl, m₂.find?_remember_self view.name g⟩

/-- A view that the hierarchy does not know has no filter, whatever is remembered. -/
theorem view_or_viewFilter_eq_throw (s : Selection) (name : String) :
    (∃ view, s.hierarchy.view name = .ok (some view)) ∨ ∃ cause, s.viewFilter name = throw cause := by
  cases hview : s.hierarchy.view name with
  | error cause =>
    refine .inr ⟨.lookup cause, ?_⟩
    rw [viewFilter, hview]
    rfl
  | ok found =>
    cases found with
    | none =>
      refine .inr ⟨.unknownView name, ?_⟩
      rw [viewFilter, hview]
      rfl
    | some view => exact .inl ⟨view, rfl⟩

theorem viewFilter_of_memo {name : String} {view : View} {m : Memos} {f : Filter}
    (hview : s.hierarchy.view name = .ok (some view)) (hmemo : m.find? view.name = some f) :
    (s.viewFilter name).outcome m = (.ok (.view view.name f), m) := by
  unfold viewFilter
  rw [outcome_bind_of_ok (ofLookup_eq_ok.mpr ⟨hview, rfl⟩)]
  simp only
  rw [outcome_bind_of_ok (outcome_get m), hmemo]
  rfl

/-- A view for which nothing is remembered is compiled like a list of its virtual paths. -/
theorem viewFilter_of_members {name : String} {view : View} {m m' : Memos} {f : Filter}
    (hview : s.hierarchy.view name = .ok (some view)) (hmemo : m.find? view.name = none)
    (h : (s.compile (.virtualPaths view.collections)).outcome m = (.ok f, m')) :
    (s.viewFilter name).outcome m =
      (.ok (.view view.name ((m'.find? view.name).getD f)), m'.remember view.name f) := by
  obtain ⟨members, m₁, h₁, h₂⟩ := bind_eq_ok.mp h
  unfold together at h₂
  cases hall : Filter.all? members with
  | none => rw [hall] at h₂; cases h₂
  | some g =>
    rw [hall] at h₂
    obtain ⟨rfl, rfl⟩ := Compilation.pure_eq_ok.mp h₂
    unfold viewFilter
    rw [outcome_bind_of_ok (ofLookup_eq_ok.mpr ⟨hview, rfl⟩)]
    simp only
    rw [outcome_bind_of_ok (outcome_get m), hmemo]
    simp only
    rw [outcome_bind_of_ok h₁, hall]
    simp only
    rw [outcome_bind_of_ok (outcome_remember view.name g m₁)]
    rfl

theorem viewFilter_of_error {name : String} {view : View} {m m' : Memos} {cause : QueryError}
    (hview : s.hierarchy.view name = .ok (some view)) (hmemo : m.find? view.name = none)
    (h : (s.compile (.virtualPaths view.collections)).outcome m = (.error cause, m')) :
    ∃ cause', (s.viewFilter name).outcome m = (.error cause', m') := by
  have hview' := ofLookup_eq_ok (m := m).mpr ⟨hview, rfl⟩
  unfold viewFilter
  rw [outcome_bind_of_ok hview']
  simp only
  rw [outcome_bind_of_ok (outcome_get m), hmemo]
  simp only
  rw [compile, outcome_bind] at h
  rcases hmembers : (view.collections.mapM s.virtualPath).outcome m with ⟨cause' | members, m₁⟩
  · rw [hmembers] at h
    cases h
    exact ⟨cause, outcome_bind_of_error hmembers⟩
  · rw [hmembers] at h
    rw [outcome_bind_of_ok hmembers]
    simp only at h
    unfold together at h
    cases hall : Filter.all? members with
    | some g => rw [hall] at h; cases h
    | none =>
      rw [hall] at h
      cases h
      exact ⟨_, rfl⟩

/-- The filters of views that are computed are of one kind. -/
def Computes (s : Selection) (P : String → Filter → Prop) : Prop :=
  ∀ {name : String} {view : View} {members : List Filter} {f : Filter} {m m' : Memos},
    s.hierarchy.view name = .ok (some view) →
    (view.collections.mapM s.virtualPath).outcome m = (.ok members, m') →
    Filter.all? members = some f → P view.name f

theorem fills_viewFilter (hP : s.Computes P)
    (h : ∀ vpath owner expression, Fills P (s.attached vpath owner expression)) (name : String) :
    Fills P (s.viewFilter name) := by
  have hQ := fills_closed P
  unfold viewFilter
  refine hQ.bind_of (hQ.ofLookup _) fun m found m' hlookup => ?_
  obtain ⟨hfound, -⟩ := ofLookup_eq_ok.mp hlookup
  cases found with
  | none => exact hQ.throw _
  | some view =>
    have hget : Fills P (get : Compilation Memos) := fun m => Memos.Extends.refl m
    refine hQ.bind hget fun memos => ?_
    split
    · exact hQ.pure _
    · have hpath : ∀ path, Fills P (s.virtualPath path) :=
        fun _ => ((beside_gives hQ fun _ => h).resolve trivial).1
      refine hQ.bind_of (hQ.mapM hpath _) fun m members m' hmembers => ?_
      split
      · exact hQ.throw _
      · rename_i f hall
        have hremember : Fills P (remember view.name f) := by
          intro m
          rw [outcome_remember]
          exact Memos.extends_remember m (hP hfound hmembers hall)
        exact hQ.bind hremember fun _ => hQ.pure _

end CalendarQuery.Selection

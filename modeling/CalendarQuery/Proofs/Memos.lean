import CalendarQuery.Proofs.Compilation

/-!
# What compilations remember

Memos only grow: a view that has a filter keeps it. So what is remembered in the end was there at
the start or was added on the way.

* `Memos.Extends`: the filters that have been added are of one kind.
* `Memos.All`: all filters are of one kind.
* `Memos.rememberAll`: what is remembered after a log of views and filters.
* `Compilation.Fills`: a compilation adds filters of that kind only, even where it fails.
* `Compilation.Still`: a compilation neither reads nor adds any.
* `Compilation.Closed`: what is common to the two, for inductions that serve both.
-/

namespace CalendarQuery

namespace Memos

variable {P : String → Filter → Prop} {m m' m₁ m₂ : Memos} {view : String} {f : Filter}

/-- Views keep their filters, and those that views have got are of the kind `P`. -/
def Extends (P : String → Filter → Prop) (m m' : Memos) : Prop :=
  ∀ view, m'.find? view = m.find? view ∨
    m.find? view = none ∧ ∃ f, m'.find? view = some f ∧ P view f

theorem find?_empty (view : String) : empty.find? view = none := rfl

theorem Extends.refl (m : Memos) : m.Extends P m := fun _ => .inl rfl

theorem Extends.keeps (h : m.Extends P m') (hf : m.find? view = some f) :
    m'.find? view = some f := by
  rcases h view with heq | ⟨hnone, -⟩
  · exact heq.trans hf
  · rw [hnone] at hf; cases hf

theorem Extends.of_added (h : m.Extends P m') (hnone : m.find? view = none)
    (hf : m'.find? view = some f) : P view f := by
  rcases h view with heq | ⟨-, g, hg, hP⟩
  · rw [heq, hnone] at hf; cases hf
  · rw [hf] at hg
    obtain rfl := Option.some.inj hg
    exact hP

theorem Extends.trans (h₁ : m.Extends P m₁) (h₂ : m₁.Extends P m₂) : m.Extends P m₂ := by
  intro view
  rcases h₁ view with heq | ⟨hnone, f, hf, hP⟩
  · rw [← heq]; exact h₂ view
  · exact .inr ⟨hnone, f, h₂.keeps hf, hP⟩

theorem extends_remember (m : Memos) (hP : P view f) : m.Extends P (m.remember view f) := by
  intro other
  by_cases h : other = view
  · subst h
    rw [find?_remember_self]
    cases hm : m.find? other with
    | some g => exact .inl rfl
    | none => exact .inr ⟨rfl, f, rfl, hP⟩
  · exact .inl (find?_remember_of_ne m f h)

/-- All filters remembered are of the kind `F`. -/
def All (F : Filter → Prop) (m : Memos) : Prop := ∀ {view f}, m.find? view = some f → F f

theorem all_empty (F : Filter → Prop) : empty.All F := by
  intro view f h
  cases h

theorem All.remember {F : Filter → Prop} (hm : m.All F) (view : String) (hf : F f) :
    (m.remember view f).All F := by
  intro other g hg
  by_cases h : other = view
  · subst h
    rw [find?_remember_self] at hg
    obtain rfl := Option.some.inj hg
    cases ho : m.find? other with
    | none => exact hf
    | some k => exact hm ho
  · rw [find?_remember_of_ne m f h] at hg
    exact hm hg

theorem isSome_remember {other : String} : ((m.remember view f).find? other).isSome ↔
    (m.find? other).isSome ∨ other = view := by
  by_cases h : other = view
  · subst h
    simp [find?_remember_self]
  · simp [find?_remember_of_ne m f h, h]

theorem remember_of_isSome (h : (m.find? view).isSome) : m.remember view f = m := by
  rw [remember, if_pos h]

/-! ## Logs -/

/-- Remembers the entries of a log, in order. -/
def rememberAll (m : Memos) (log : List (String × Filter)) : Memos :=
  log.foldl (fun m entry => m.remember entry.1 entry.2) m

variable {log : List (String × Filter)}

theorem rememberAll_append (m : Memos) (log log' : List (String × Filter)) :
    m.rememberAll (log ++ log') = (m.rememberAll log).rememberAll log' := List.foldl_append

theorem isSome_rememberAll : ((m.rememberAll log).find? view).isSome ↔
    (m.find? view).isSome ∨ view ∈ log.map Prod.fst := by
  induction log generalizing m with
  | nil => simp [rememberAll]
  | cons entry log ih =>
    rw [rememberAll, List.foldl_cons]
    refine ih.trans ?_
    rw [isSome_remember, List.map_cons, List.mem_cons, or_assoc]

/-- A log of views that all have filters adds nothing. -/
theorem rememberAll_of_isSome (h : ∀ entry ∈ log, (m.find? entry.1).isSome) :
    m.rememberAll log = m := by
  induction log with
  | nil => rfl
  | cons entry log ih =>
    rw [rememberAll, List.foldl_cons, remember_of_isSome (h entry List.mem_cons_self)]
    exact ih fun other hother => h other (List.mem_cons_of_mem entry hother)

end Memos

namespace Compilation

variable {α β : Type} {P : String → Filter → Prop}

/-! ## Predicates on compilations -/

/-- What is closed under sequencing; the second of two compilations may rely on a success of the
first. -/
structure Closed (Q : ∀ {α : Type}, Compilation α → Prop) : Prop where
  pure : ∀ {α : Type} (a : α), Q (Pure.pure a : Compilation α)
  throw : ∀ {α : Type} (cause : QueryError), Q (MonadExcept.throw cause : Compilation α)
  bind_of : ∀ {α β : Type} {c : Compilation α} {f : α → Compilation β}, Q c →
    (∀ m a m', c.outcome m = (.ok a, m') → Q (f a)) → Q (c >>= f)

namespace Closed

variable {Q : ∀ {α : Type}, Compilation α → Prop}

theorem bind (hQ : Closed Q) {c : Compilation α} {f : α → Compilation β} (hc : Q c)
    (hf : ∀ a, Q (f a)) : Q (c >>= f) :=
  hQ.bind_of hc fun _ a _ _ => hf a

theorem ofLookup (hQ : Closed Q) (r : Except LookupError α) : Q (Compilation.ofLookup r) := by
  cases r with
  | ok a => exact hQ.pure a
  | error cause => exact hQ.throw (.lookup cause)

theorem mapM (hQ : Closed Q) {f : α → Compilation β} (h : ∀ a, Q (f a)) (as : List α) :
    Q (as.mapM f) := by
  induction as with
  | nil => exact hQ.pure []
  | cons a as ih =>
    rw [List.mapM_cons]
    exact hQ.bind (h a) fun b => hQ.bind ih fun bs => hQ.pure (b :: bs)

end Closed

/-! ## Compilations that add memos -/

/-- Whatever a compilation remembers is of the kind `P`. -/
def Fills (P : String → Filter → Prop) (c : Compilation α) : Prop :=
  ∀ m : Memos, m.Extends P (c.outcome m).2

theorem fills_closed (P : String → Filter → Prop) : Closed (Fills P) where
  pure _ m := Memos.Extends.refl m
  throw _ m := Memos.Extends.refl m
  bind_of := by
    intro _ _ c f hc hf m
    have hm := hc m
    rcases hr : c.outcome m with ⟨_ | a, m'⟩
    · rw [outcome_bind_of_error hr]
      rwa [hr] at hm
    · rw [outcome_bind_of_ok hr]
      rw [hr] at hm
      exact hm.trans (hf m a m' hr m')

theorem Fills.mapError {c : Compilation α} (f : QueryError → QueryError) (h : Fills P c) :
    Fills P (Compilation.mapError f c) := by
  intro m
  rw [outcome_mapError]
  exact h m

/-- What is asked of the memos. -/
theorem outcome_get (m : Memos) : (get : Compilation Memos).outcome m = (.ok m, m) := rfl

theorem outcome_remember (view : String) (f : Filter) (m : Memos) :
    (remember view f).outcome m = (.ok ((m.find? view).getD f), m.remember view f) := by
  have hself := m.find?_remember_self view f
  show (Except.ok (((m.remember view f).find? view).getD f), m.remember view f) = _
  rw [hself]
  rfl

/-! ## Compilations without memos -/

/-- The outcome does not depend on the memos, which stay as they are. -/
def Still (c : Compilation α) : Prop := ∃ r, c = ofExcept r

theorem still_closed : Closed Still where
  pure a := ⟨.ok a, rfl⟩
  throw cause := ⟨.error cause, rfl⟩
  bind_of := by
    rintro _ _ _ f ⟨r, rfl⟩ hf
    cases r with
    | ok a =>
      obtain ⟨r', hr'⟩ := hf .empty a .empty rfl
      exact ⟨r', hr'⟩
    | error cause => exact ⟨.error cause, rfl⟩

theorem Still.outcome_eq {c : Compilation α} (h : Still c) (m m' : Memos) :
    c.outcome m = ((c.outcome m').1, m) := by
  obtain ⟨r, rfl⟩ := h
  simp only [outcome_ofExcept]

/-! ## Lists -/

/-- What is known of each success is known of all of them together. -/
theorem map_of_mapM {γ : Type} {f : α → Compilation β} {g : β → γ} {k : α → γ}
    (hf : ∀ {a b m m'}, (f a).outcome m = (.ok b, m') → g b = k a) {as : List α} {bs : List β}
    {m m' : Memos} (h : (as.mapM f).outcome m = (.ok bs, m')) : bs.map g = as.map k := by
  induction as generalizing bs m m' with
  | nil =>
    rw [List.mapM_nil] at h
    obtain ⟨rfl, -⟩ := Compilation.pure_eq_ok.mp h
    rfl
  | cons a as ih =>
    rw [List.mapM_cons] at h
    obtain ⟨b, m₁, h₁, h⟩ := bind_eq_ok.mp h
    obtain ⟨others, m₂, h₂, h₃⟩ := bind_eq_ok.mp h
    obtain ⟨rfl, -⟩ := Compilation.pure_eq_ok.mp h₃
    rw [List.map_cons, List.map_cons, hf h₁, ih h₂]

theorem mapM_congr {f g : α → Compilation β} {as : List α} (h : ∀ a ∈ as, f a = g a) :
    as.mapM f = as.mapM g := by
  induction as with
  | nil => rfl
  | cons a as ih =>
    obtain ⟨ha, has⟩ := List.forall_mem_cons.mp h
    rw [List.mapM_cons, List.mapM_cons, ha, ih has]

theorem length_of_mapM {f : α → Compilation β} {as : List α} {bs : List β} {m m' : Memos}
    (h : (as.mapM f).outcome m = (.ok bs, m')) : bs.length = as.length := by
  have hmap := map_of_mapM (g := fun _ => ()) (k := fun _ => ()) (fun _ => rfl) h
  simpa using congrArg List.length hmap

/-- A list fails with the cause of its first member that fails, where the ones before it have left
the memos. -/
theorem mapM_eq_error {f : α → Compilation β} {as : List α} {m m' : Memos} {cause : QueryError} :
    (as.mapM f).outcome m = (.error cause, m') ↔
      ∃ before a after bs m₁, as = before ++ a :: after ∧
        (before.mapM f).outcome m = (.ok bs, m₁) ∧ (f a).outcome m₁ = (.error cause, m') := by
  constructor
  · intro h
    induction as generalizing m with
    | nil => cases h
    | cons a as ih =>
      rw [List.mapM_cons] at h
      rcases bind_eq_error.mp h with ha | ⟨b, m₁, ha, h⟩
      · exact ⟨[], a, as, [], m, rfl, rfl, ha⟩
      · rcases bind_eq_error.mp h with hrest | ⟨bs, m₂, -, h⟩
        · obtain ⟨before, a', after, bs, m₂, rfl, hbefore, hfails⟩ := ih hrest
          refine ⟨a :: before, a', after, b :: bs, m₂, rfl, ?_, hfails⟩
          rw [List.mapM_cons, outcome_bind_of_ok ha, outcome_bind_of_ok hbefore]
          rfl
        · cases h
  · rintro ⟨before, a, after, bs, m₁, rfl, hbefore, hfails⟩
    rw [List.mapM_append, outcome_bind_of_ok hbefore, List.mapM_cons]
    exact outcome_bind_of_error (outcome_bind_of_error hfails)

end Compilation

end CalendarQuery

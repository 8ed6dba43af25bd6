import CalendarQuery.Proofs.Memos

/-!
# Judgments about compilations

A judgment relates a compilation to a family of others and says of which kind its values are. What
is needed to follow the text of a compilation are three rules: for values, for failures, and for
sequencing. The other ways to make compilations have theirs derived.

* `Compilation.Judgment`: the rules.
* `Compilation.Gives`: the judgment that a compilation is of a closed kind and gives values of a kind.
* `Compilation.Keeps`: the judgment that a compilation keeps what is known of the filters remembered,
  and gives values of a kind or fails with causes of a kind.
-/

namespace CalendarQuery.Compilation

variable {ι : Type}

/-- The rules of a judgment. `J V c d` says that `c` gives values of the kind `V`, and relates it to
the family `d`; the causes of failures are of the kind `E`. -/
structure Judgment (E : QueryError → Prop)
    (J : ∀ {α : Type}, (α → Prop) → Compilation α → (ι → Compilation α) → Prop) : Prop where
  pure : ∀ {α : Type} {V : α → Prop} {a : α}, V a → J V (Pure.pure a) fun _ => Pure.pure a
  throw : ∀ {α : Type} {V : α → Prop} {cause : QueryError}, E cause →
    J V (MonadExcept.throw cause) fun _ => MonadExcept.throw cause
  bind : ∀ {α β : Type} {V : α → Prop} {W : β → Prop} {c : Compilation α} {d : ι → Compilation α}
    {f : α → Compilation β} {g : ι → α → Compilation β}, J V c d →
    (∀ a, V a → J W (f a) fun i => g i a) → J W (c >>= f) fun i => d i >>= g i

namespace Judgment

variable {α β : Type} {E : QueryError → Prop}
  {J : ∀ {α : Type}, (α → Prop) → Compilation α → (ι → Compilation α) → Prop}
  {V : α → Prop} {W : β → Prop} {c : Compilation α} {d : ι → Compilation α}

theorem ofExcept (hJ : Judgment E J) {r : Except QueryError α} (hok : ∀ a, r = .ok a → V a)
    (herror : ∀ cause, r = .error cause → E cause) :
    J V (Compilation.ofExcept r) fun _ => Compilation.ofExcept r := by
  cases r with
  | ok a => exact hJ.pure (hok a rfl)
  | error cause => exact hJ.throw (herror cause rfl)

/-- An answer whose failure is told otherwise. -/
theorem ofExcept_mapError (hJ : Judgment E J) {ε : Type} {r : Except ε α} {g : ε → QueryError}
    (hok : ∀ a, r = .ok a → V a) (herror : ∀ e, r = .error e → E (g e)) :
    J V (Compilation.ofExcept (r.mapError g)) fun _ => Compilation.ofExcept (r.mapError g) := by
  cases r with
  | ok a => exact hJ.pure (hok a rfl)
  | error e => exact hJ.throw (herror e rfl)

theorem ofLookup (hJ : Judgment E J) {r : Except LookupError α} (hok : ∀ a, r = .ok a → V a)
    (herror : ∀ cause, r = .error cause → E (.lookup cause)) :
    J V (Compilation.ofLookup r) fun _ => Compilation.ofLookup r := by
  cases r with
  | ok a => exact hJ.pure (hok a rfl)
  | error cause => exact hJ.throw (herror cause rfl)

theorem map (hJ : Judgment E J) {f : α → β} (hc : J V c d) (hf : ∀ a, V a → W (f a)) :
    J W (f <$> c) fun i => f <$> d i := by
  simp only [map_eq_pure_bind]
  exact hJ.bind hc fun a ha => hJ.pure (hf a ha)

/-- A weaker statement about the values. -/
theorem mono (hJ : Judgment E J) {V' : α → Prop} (hc : J V c d) (h : ∀ a, V a → V' a) :
    J V' c d := by
  have hbind := hJ.bind (W := V') (f := Pure.pure) (g := fun _ => Pure.pure) hc fun a ha =>
    hJ.pure (h a ha)
  simpa using hbind

theorem mapM (hJ : Judgment E J) {f : α → Compilation β} {g : ι → α → Compilation β}
    {as : List α} (h : ∀ a ∈ as, J W (f a) fun i => g i a) :
    J (fun bs => ∀ b ∈ bs, W b) (as.mapM f) fun i => as.mapM (g i) := by
  induction as with
  | nil =>
    simp only [List.mapM_nil]
    exact hJ.pure (by simp)
  | cons a as ih =>
    simp only [List.mapM_cons]
    refine hJ.bind (h a List.mem_cons_self) fun b hb => ?_
    refine hJ.bind (ih fun a ha => h a (List.mem_cons_of_mem _ ha)) fun bs hbs => ?_
    exact hJ.pure (List.forall_mem_cons.mpr ⟨hb, hbs⟩)

end Judgment

/-! ## Closed kinds -/

/-- The compilation is of the kind `Q`, and its values are of the kind `V`. -/
def Gives {α : Type} (Q : ∀ {α : Type}, Compilation α → Prop) (V : α → Prop) (c : Compilation α) :
    Prop := Q c ∧ ∀ m a m', c.outcome m = (.ok a, m') → V a

theorem gives_true {α : Type} {Q : ∀ {α : Type}, Compilation α → Prop} {c : Compilation α}
    (h : Q c) : Gives Q (fun _ => True) c := ⟨h, fun _ _ _ _ => trivial⟩

theorem gives_throw {α : Type} {Q : ∀ {α : Type}, Compilation α → Prop} {V : α → Prop}
    (hQ : Closed Q) (cause : QueryError) : Gives Q V (MonadExcept.throw cause : Compilation α) :=
  ⟨hQ.throw cause, fun _ _ _ h => by cases h⟩

theorem judgment_gives {Q : ∀ {α : Type}, Compilation α → Prop} (hQ : Closed Q) :
    Judgment (ι := ι) (fun _ => True) fun V c _ => Gives Q V c where
  pure := by
    intro _ V a h
    refine ⟨hQ.pure a, fun m b m' hb => ?_⟩
    obtain ⟨rfl, -⟩ := pure_eq_ok.mp hb
    exact h
  throw := fun _ => gives_throw hQ _
  bind := by
    intro _ _ V W c _ f _ hc hf
    refine ⟨hQ.bind_of hc.1 fun m a m' h => (hf a (hc.2 m a m' h)).1, fun m b m' h => ?_⟩
    obtain ⟨a, m₁, h₁, h₂⟩ := bind_eq_ok.mp h
    exact (hf a (hc.2 m a m₁ h₁)).2 m₁ b m' h₂

/-! ## What compilations keep -/

/-- Where all filters remembered are of the kind `F`, they still are when the compilation is over;
its value is of the kind `V`, or the cause of its failure of the kind `E`. -/
def Keeps {α : Type} (F : Filter → Prop) (E : QueryError → Prop) (V : α → Prop)
    (c : Compilation α) : Prop :=
  ∀ m : Memos, m.All F → (c.outcome m).2.All F ∧ (∀ a, (c.outcome m).1 = .ok a → V a) ∧
    ∀ cause, (c.outcome m).1 = .error cause → E cause

variable {α β : Type} {F : Filter → Prop} {E : QueryError → Prop} {V : α → Prop}
  {W : β → Prop}

theorem Keeps.pure {a : α} (h : V a) : Keeps F E V (Pure.pure a) := fun _ hm =>
  ⟨hm, fun _ ha => Except.ok.inj ha ▸ h, fun _ hcause => by cases hcause⟩

theorem Keeps.throw {cause : QueryError} (h : E cause) :
    Keeps F E V (MonadExcept.throw cause : Compilation α) := fun _ hm =>
  ⟨hm, fun _ ha => (by cases ha), fun _ hcause => Except.error.inj hcause ▸ h⟩

theorem Keeps.bind {c : Compilation α} {f : α → Compilation β} (hc : Keeps F E V c)
    (hf : ∀ a, V a → Keeps F E W (f a)) : Keeps F E W (c >>= f) := by
  intro m hm
  obtain ⟨hm', hok, herror⟩ := hc m hm
  rcases hr : c.outcome m with ⟨cause | a, m'⟩
  · rw [outcome_bind_of_error hr]
    rw [hr] at hm' herror
    exact ⟨hm', fun a ha => (by cases ha), fun _ h => Except.error.inj h ▸ herror _ rfl⟩
  · rw [outcome_bind_of_ok hr]
    rw [hr] at hm' hok
    exact hf a (hok a rfl) m' hm'

theorem judgment_keeps (F : Filter → Prop) (E : QueryError → Prop) :
    Judgment (ι := ι) E fun V c _ => Keeps F E V c where
  pure := Keeps.pure
  throw := Keeps.throw
  bind := Keeps.bind

theorem Keeps.mapError {c : Compilation α} {f : QueryError → QueryError}
    {E' : QueryError → Prop} (h : Keeps F E V c) (hf : ∀ cause, E cause → E' (f cause)) :
    Keeps F E' V (Compilation.mapError f c) := by
  intro m hm
  obtain ⟨hm', hok, herror⟩ := h m hm
  rw [outcome_mapError]
  rcases hr : c.outcome m with ⟨cause | a, m'⟩
  · rw [hr] at hm' herror
    exact ⟨hm', fun a ha => (by cases ha), fun _ ha => Except.error.inj ha ▸ hf cause (herror _ rfl)⟩
  · rw [hr] at hm' hok
    exact ⟨hm', hok, fun _ ha => by cases ha⟩

theorem keeps_get : Keeps F E (Memos.All F) get := fun m hm =>
  ⟨hm, fun _ ha => Except.ok.inj ha ▸ hm, fun _ ha => by cases ha⟩

theorem keeps_remember (view : String) {f : Filter} (h : F f) :
    Keeps F E F (remember view f) := by
  intro m hm
  rw [outcome_remember]
  refine ⟨hm.remember view h, fun g hg => ?_, fun _ ha => by cases ha⟩
  obtain rfl := Except.ok.inj hg
  cases hf : m.find? view with
  | none => exact h
  | some k => exact hm hf

end CalendarQuery.Compilation

import CalendarQuery.Compilation

/-!
# Outcomes of compilations

What a compilation does to the memos and what it gives, read off its text: `outcome_pure`,
`outcome_bind` and the lemmas for the other ways in which compilations are made. `bind_eq_ok` and
`map_eq_ok` take a success apart, `bind_eq_error`
and `map_eq_error` a failure.
-/

namespace CalendarQuery.Compilation

variable {α β : Type}

theorem ext {c d : Compilation α} (h : ∀ m, c.outcome m = d.outcome m) : c = d := funext h

@[simp] theorem outcome_pure (a : α) (m : Memos) :
    (pure a : Compilation α).outcome m = (.ok a, m) := rfl

@[simp] theorem outcome_throw (cause : QueryError) (m : Memos) :
    (throw cause : Compilation α).outcome m = (.error cause, m) := rfl

@[simp] theorem outcome_ofExcept (r : Except QueryError α) (m : Memos) :
    (ofExcept r).outcome m = (r, m) := by
  cases r <;> rfl

theorem outcome_bind (c : Compilation α) (f : α → Compilation β) (m : Memos) :
    (c >>= f).outcome m = match c.outcome m with
      | (.ok a, m') => (f a).outcome m'
      | (.error cause, m') => (.error cause, m') := by
  simp only [outcome, ExceptT.run_bind, StateT.run_bind]
  generalize StateT.run (ExceptT.run c) m = r
  rcases r with ⟨_ | _, _⟩ <;> rfl

theorem outcome_bind_of_ok {c : Compilation α} {f : α → Compilation β} {m m' : Memos} {a : α}
    (h : c.outcome m = (.ok a, m')) : (c >>= f).outcome m = (f a).outcome m' := by
  rw [outcome_bind, h]

theorem outcome_bind_of_error {c : Compilation α} {f : α → Compilation β} {m m' : Memos}
    {cause : QueryError} (h : c.outcome m = (.error cause, m')) :
    (c >>= f).outcome m = (.error cause, m') := by
  rw [outcome_bind, h]

theorem bind_eq_ok {c : Compilation α} {f : α → Compilation β} {m m' : Memos} {b : β} :
    (c >>= f).outcome m = (.ok b, m') ↔
      ∃ a m₁, c.outcome m = (.ok a, m₁) ∧ (f a).outcome m₁ = (.ok b, m') := by
  rw [outcome_bind]
  constructor
  · intro h
    split at h
    · exact ⟨_, _, ‹_›, h⟩
    · cases h
  · rintro ⟨a, m₁, h₁, h₂⟩
    rw [h₁]; exact h₂

theorem bind_congr_of_ok {c : Compilation α} {f g : α → Compilation β}
    (h : ∀ m a m', c.outcome m = (.ok a, m') → f a = g a) : c >>= f = c >>= g := by
  refine ext fun m => ?_
  rcases hc : c.outcome m with ⟨cause | a, m'⟩
  · rw [outcome_bind_of_error hc, outcome_bind_of_error hc]
  · rw [outcome_bind_of_ok hc, outcome_bind_of_ok hc, h m a m' hc]

theorem bind_eq_error {c : Compilation α} {f : α → Compilation β} {m m' : Memos}
    {cause : QueryError} : (c >>= f).outcome m = (.error cause, m') ↔
      c.outcome m = (.error cause, m') ∨
        ∃ a m₁, c.outcome m = (.ok a, m₁) ∧ (f a).outcome m₁ = (.error cause, m') := by
  rw [outcome_bind]
  rcases c.outcome m with ⟨_ | a, m₁⟩
  · simp
  · constructor
    · exact fun h => .inr ⟨a, m₁, rfl, h⟩
    · rintro (h | ⟨_, _, h, hf⟩)
      · cases h
      · cases h
        exact hf

theorem outcome_map (f : α → β) (c : Compilation α) (m : Memos) :
    (f <$> c).outcome m = ((c.outcome m).1.map f, (c.outcome m).2) := by
  rw [map_eq_pure_bind, outcome_bind]
  rcases c.outcome m with ⟨_ | _, _⟩ <;> rfl

theorem map_eq_ok {f : α → β} {c : Compilation α} {m m' : Memos} {b : β} :
    (f <$> c).outcome m = (.ok b, m') ↔ ∃ a, c.outcome m = (.ok a, m') ∧ f a = b := by
  rw [outcome_map]
  rcases c.outcome m with ⟨_ | a, m₁⟩
  · simp [Except.map]
  · simp only [Except.map, Prod.mk.injEq, Except.ok.injEq]
    constructor
    · rintro ⟨rfl, rfl⟩; exact ⟨a, ⟨rfl, rfl⟩, rfl⟩
    · rintro ⟨_, ⟨rfl, rfl⟩, rfl⟩; exact ⟨rfl, rfl⟩

theorem map_eq_error {f : α → β} {c : Compilation α} {m m' : Memos} {cause : QueryError} :
    (f <$> c).outcome m = (.error cause, m') ↔ c.outcome m = (.error cause, m') := by
  rw [outcome_map]
  rcases c.outcome m with ⟨_ | a, m₁⟩ <;> simp [Except.map]

theorem pure_eq_ok {a b : α} {m m' : Memos} :
    (pure a : Compilation α).outcome m = (.ok b, m') ↔ a = b ∧ m = m' := by
  simp

theorem ofExcept_eq_ok {r : Except QueryError α} {m m' : Memos} {a : α} :
    (ofExcept r).outcome m = (.ok a, m') ↔ r = .ok a ∧ m = m' := by
  simp

theorem outcome_mapError (f : QueryError → QueryError) (c : Compilation α) (m : Memos) :
    (mapError f c).outcome m = ((c.outcome m).1.mapError f, (c.outcome m).2) := rfl

theorem mapError_eq_ok {f : QueryError → QueryError} {c : Compilation α} {m m' : Memos} {a : α} :
    (mapError f c).outcome m = (.ok a, m') ↔ c.outcome m = (.ok a, m') := by
  rw [outcome_mapError]
  rcases c.outcome m with ⟨cause | b, m₁⟩
  · constructor <;> intro h <;> cases h
  · exact Iff.rfl

end CalendarQuery.Compilation

import CalendarQuery.Error
import CalendarQuery.Limits

/-!
# Compilations

Compiling reads and extends the memos of views, and may fail. Memos outlive a failure: a
compilation is a state of memos around an error, not the other way round.

* `Memos.find?`, `Memos.remember`: the filter of a view is the first one remembered for it.
* `Compilation`: computations with memos that may fail.
* `Compilation.ofExcept`, `Compilation.mapError`: how causes enter and change.
-/

namespace CalendarQuery

/-- The filters remembered for views. Each stands under the name of its view, by which the views of
a hierarchy are told apart (`Hierarchy.view`). -/
structure Memos where
  entries : List (String × Filter)
  deriving DecidableEq, Repr

namespace Memos

/-- Nothing remembered. -/
def empty : Memos := ⟨[]⟩

/-- The filter remembered for the view of that name. -/
def find? (m : Memos) (view : String) : Option Filter :=
  (m.entries.find? fun entry => entry.1 == view).map Prod.snd

/-- Remembers a filter for a view that has none. -/
def remember (m : Memos) (view : String) (filter : Filter) : Memos :=
  if (m.find? view).isSome then m else ⟨m.entries ++ [(view, filter)]⟩

theorem find?_remember_self (m : Memos) (view : String) (filter : Filter) :
    (m.remember view filter).find? view = some ((m.find? view).getD filter) := by
  unfold remember
  cases hf : m.find? view with
  | some f => simp [hf]
  | none =>
    have hf' : m.entries.find? (fun entry => entry.1 == view) = none := by
      simpa [find?] using hf
    simp [find?, List.find?_append, hf']

theorem find?_remember_of_ne (m : Memos) {view other : String} (filter : Filter)
    (h : other ≠ view) : (m.remember view filter).find? other = m.find? other := by
  unfold remember
  split
  · rfl
  · simp [find?, List.find?_append, h.symm]

end Memos

/-- Computations that read and extend memos and may fail. -/
abbrev Compilation (α : Type) := ExceptT QueryError (StateM Memos) α

namespace Compilation

variable {α : Type}

/-- An outcome that needs no memos. -/
def ofExcept : Except QueryError α → Compilation α
  | .ok a => pure a
  | .error cause => throw cause

/-- The answer of a hierarchy, or the failure to answer. -/
def ofLookup : Except LookupError α → Compilation α
  | .ok a => pure a
  | .error cause => throw (.lookup cause)

/-- The same computation with another cause if it fails. -/
def mapError (f : QueryError → QueryError) (c : Compilation α) : Compilation α :=
  ExceptT.adapt f c

/-- The filter of a view: the remembered one, or else the given one, which is remembered. -/
def remember (view : String) (filter : Filter) : Compilation Filter := do
  modify fun m => m.remember view filter
  return ((← get).find? view).getD filter

/-- The outcome and the memos after it. -/
def outcome (c : Compilation α) (m : Memos) : Except QueryError α × Memos := (c.run).run m

end Compilation

end CalendarQuery

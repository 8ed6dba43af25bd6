import CalendarQuery.Hierarchy

/-!
# Hierarchies with faults

`Hierarchy.withFaults` makes a hierarchy fail on chosen calls, hide chosen collections, or lose the
targets of chosen aliases. All other answers stay.
-/

namespace CalendarQuery

/-- The faults of a hierarchy. -/
structure Faults where
  /-- Calls that fail, each written as the method, a colon and the argument. -/
  failing : List String
  /-- Arguments for which no collection is found. -/
  hidden : List String
  /-- Paths of collections that lose their target. -/
  dangling : List String
  deriving DecidableEq, Repr

namespace Faults

/-- No faults. -/
def none : Faults := ⟨[], [], []⟩

/-- The answer to a call, or the failure of the store behind it. -/
def guard {α : Type} (f : Faults) (method argument : String) (answer : Except LookupError α) :
    Except LookupError α :=
  let call := method ++ ":" ++ argument
  if f.failing.contains call then .error (.backend call) else answer

/-- The collection as it is seen: without its target if it lost that. -/
def see (f : Faults) (c : Collection) : Collection :=
  if f.dangling.contains c.path then { c with target := Option.none } else c

@[simp] theorem path_see (f : Faults) (c : Collection) : (f.see c).path = c.path := by
  unfold see; split <;> rfl

theorem eq_of_guard {α : Type} {f : Faults} {method argument : String}
    {answer : Except LookupError α} {a : α} (h : f.guard method argument answer = .ok a) :
    answer = .ok a := by
  unfold guard at h
  simp only at h
  split at h
  · simp at h
  · exact h

end Faults

namespace Hierarchy

/-- The hierarchy with faults. -/
def withFaults (h : Hierarchy) (f : Faults) : Hierarchy where
  collection path := f.guard "collection" path <|
    if f.hidden.contains path then .ok none else (h.collection path).map (·.map f.see)
  children path := f.guard "children" path ((h.children path).map (·.map f.see))
  categoryNamed name := f.guard "category_by_name" name (h.categoryNamed name)
  categoryWithUid uid := f.guard "category_by_uid" uid (h.categoryWithUid uid)
  view name := f.guard "view" name (h.view name)
  paths := h.paths
  collection_mem {path c} hc := by
    have hc := Faults.eq_of_guard hc
    split at hc
    · simp at hc
    · cases hr : h.collection path with
      | error e => rw [hr] at hc; simp [Except.map] at hc
      | ok o =>
        rw [hr] at hc
        cases o with
        | none => simp [Except.map] at hc
        | some d =>
          simp only [Except.map, Option.map_some, Except.ok.injEq, Option.some.injEq] at hc
          subst hc; rw [Faults.path_see]; exact h.collection_mem hr
  children_mem {path cs c} hc hm := by
    have hc := Faults.eq_of_guard hc
    cases hr : h.children path with
    | error e => rw [hr] at hc; simp [Except.map] at hc
    | ok ds =>
      rw [hr] at hc
      simp only [Except.map, Except.ok.injEq] at hc
      subst hc
      obtain ⟨d, hd, rfl⟩ := List.mem_map.mp hm
      rw [Faults.path_see]; exact h.children_mem hr hd

end Hierarchy

end CalendarQuery

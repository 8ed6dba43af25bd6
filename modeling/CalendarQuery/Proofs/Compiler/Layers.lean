import CalendarQuery.Proofs.Compiler.Depth

/-!
# The layers of a failure

A filter attached to a collection that does not compile fails the filter that asked for it, with the
path of the collection around the cause. So the cause of a failure is one of its own kind inside as
many layers as attached filters were entered on the way to it.

* `QueryError.within`: a cause inside layers, which are its `owners`.
* `Compiler.Enclosed`: how many layers a cause can have, and what their owners are.
* `Compiler.keeps_enclosed`: a compilation fails with such causes only.
* `Compiler.filter_failed_layers`: the cause with which a call fails.
-/

namespace CalendarQuery

namespace QueryError

/-- A cause inside the filters attached to the given collections, the outermost first. -/
def within (owners : List String) (inner : QueryError) : QueryError :=
  owners.foldr .nested inner

theorem within_owners (cause : QueryError) : within cause.owners cause.root = cause := by
  induction cause with
  | nested owner inner ih => exact congrArg (nested owner) ih
  | _ => rfl

theorem root_ne_nested (cause : QueryError) (owner : String) (inner : QueryError) :
    cause.root ≠ .nested owner inner := by
  induction cause with
  | nested _ _ ih => exact ih
  | _ => nofun

end QueryError

namespace Compiler

open Compilation

/-- What is known of a cause where `levels` more levels of attached filters may be compiled. -/
structure Enclosed (store : Store) (limits : Limits) (levels : Nat) (cause : QueryError) :
    Prop where
  length_le : cause.owners.length ≤ levels
  attaches : ∀ owner ∈ cause.owners, ∃ expression, store.Attaches owner expression
  /-- The levels run out only inside all of them. -/
  exhausted : ∀ limit, cause.root = .aliasDepthExceeded limit →
    limit = limits.maxAliasDepth ∧ cause.owners.length = levels

variable {store : Store} {limits : Limits} {levels : Nat} {explicit : Bool}
  {resolving : List String} {text : String}

theorem enclosed_of_quoting {asked : String → Prop} {cause : QueryError}
    (h : (Reading.quoting asked).cause cause) : Enclosed store limits levels cause := by
  cases cause with
  | aliasDepthExceeded limit => exact h.elim
  | nested owner inner => exact h.elim
  | _ => exact ⟨Nat.zero_le _, fun _ hm => (List.not_mem_nil hm).elim, nofun⟩

theorem enclosed_aliasDepthExceeded :
    Enclosed store limits 0 (.aliasDepthExceeded limits.maxAliasDepth) where
  length_le := Nat.le_refl 0
  attaches _ hm := (List.not_mem_nil hm).elim
  exhausted _ h := by
    cases h
    exact ⟨rfl, rfl⟩

theorem Enclosed.nested {cause : QueryError} {owner : String}
    (h : Enclosed store limits levels cause) {expression : String}
    (howner : store.Attaches owner expression) :
    Enclosed store limits (levels + 1) (.nested owner cause) where
  length_le := Nat.succ_le_succ h.length_le
  attaches := List.forall_mem_cons.mpr ⟨⟨expression, howner⟩, h.attaches⟩
  exhausted limit hroot :=
    ⟨(h.exhausted limit hroot).1, congrArg (· + 1) (h.exhausted limit hroot).2⟩

/-- The causes with which an expression fails; the induction is on the levels, and a cause that
comes out of an attached filter has its layer put around it on the way. -/
theorem keeps_enclosed : Keeps (fun _ => True) (Enclosed store limits levels) (fun _ => True)
    (compileWithin ⟨store.hierarchy, limits⟩ explicit levels resolving text) := by
  induction levels generalizing resolving text with
  | zero =>
    exact keeps_of_attached (Q := fun _ => True) Filter.inherited_true enclosed_of_quoting
      store.answers_vouches (fun _ _ _ _ => Keeps.throw enclosed_aliasDepthExceeded)
      (fun _ _ _ => Keeps.throw enclosed_aliasDepthExceeded) (fun _ _ _ => trivial)
      (Reading.quoting_ofString text)
  | succ levels ih =>
    exact keeps_of_attached (Q := fun _ => True) Filter.inherited_true enclosed_of_quoting
      store.answers_vouches
      (fun _ _ hd hfilter => ih.mapError fun _ h => h.nested (hd.attaches hfilter))
      (fun hd _ hfilter => ih.mapError fun _ h => h.nested (hd.attaches hfilter))
      (fun _ _ _ => trivial) (Reading.quoting_ofString text)

/-- Whatever is remembered, a call that fails does so with a cause that is not of an attached filter
inside layers for collections with attached filters. There are no more layers than the limit, and
if the cause is that the limit is exceeded there are just as many. -/
theorem filter_failed_layers (store : Store) (limits : Limits) (text : String) (explicit : Bool)
    (source label : String) (m m' : Memos) (cause : QueryError)
    (h : filter ⟨store.hierarchy, limits⟩ text explicit source m = (.failed label cause, m')) :
    ∃ (owners : List String) (inner : QueryError), cause = QueryError.within owners inner ∧
      (∀ (owner : String) (deeper : QueryError), inner ≠ .nested owner deeper) ∧
      owners.length ≤ limits.maxAliasDepth ∧
      (∀ owner ∈ owners, ∃ expression, store.Attaches owner expression) ∧
      ∀ limit, inner = .aliasDepthExceeded limit →
        limit = limits.maxAliasDepth ∧ owners.length = limits.maxAliasDepth := by
  have herror := (filter_eq_failed.mp h).2
  have henclosed : Enclosed store limits limits.maxAliasDepth cause :=
    (keeps_enclosed m fun _ => trivial).2.2 cause (congrArg Prod.fst herror)
  exact ⟨cause.owners, cause.root, cause.within_owners.symm, cause.root_ne_nested,
    henclosed.length_le, henclosed.attaches, henclosed.exhausted⟩

/-- Three levels run out at the alias that asks for the folder that it is in. -/
theorem filter_failed_layers_cycleStore :
    filter ⟨Store.cycleStore.hierarchy, ⟨3, 8192, false⟩⟩ "vpath = \"/f\"" false "" .empty =
        (.failed "" (.within ["/f/a", "/f/a", "/f/a"] (.aliasDepthExceeded 3)), .empty) ∧
      ∃ (owners : List String) (inner : QueryError),
        QueryError.within ["/f/a", "/f/a", "/f/a"] (.aliasDepthExceeded 3) =
          QueryError.within owners inner ∧
        (∀ (owner : String) (deeper : QueryError), inner ≠ .nested owner deeper) ∧
        owners.length ≤ 3 ∧
        (∀ owner ∈ owners, ∃ expression, Store.cycleStore.Attaches owner expression) ∧
        ∀ limit, inner = .aliasDepthExceeded limit → limit = 3 ∧ owners.length = 3 := by
  have hlength : "vpath = \"/f\"".utf8ByteSize ≤ 8192 := by decide
  have hfails : filter ⟨Store.cycleStore.hierarchy, ⟨3, 8192, false⟩⟩ "vpath = \"/f\"" false ""
      .empty = (.failed "" (.within ["/f/a", "/f/a", "/f/a"] (.aliasDepthExceeded 3)), .empty) :=
    filter_of_error
      (Store.outcome_compileWithin_cycle (decide_eq_true hlength) List.not_mem_nil .empty)
  exact ⟨hfails, filter_failed_layers Store.cycleStore ⟨3, 8192, false⟩ "vpath = \"/f\"" false "" ""
    .empty .empty _ hfails⟩

end Compiler

end CalendarQuery

import CalendarQuery.Limits
import CalendarQuery.Proofs.Hierarchy.Chain
import Mathlib.Data.List.Perm.Subperm

/-!
# Nested calls

To compile an expression the paths that it names are resolved, and those of views. A path asks for
the filters attached along its chain and for the expansion of the collection that it leads to, and
an expansion for those of the collections that it enters; filters attached to collections are
expressions again, one level deeper. Nothing in a store keeps these calls from coming back to where
they started. What does are two checks: no level is deeper than the limit, and no collection is
entered while it is being expanded.

* `Compiler.Frame`: a call that is under way.
* `Compiler.Frame.Calls`: the calls that one can make, behind the checks.
* `Compiler.Frame.Within`: the bounds of one call; `Frame.Calls.within` is the step that keeps them.
* `Compiler.CallStack`: calls nested in each other; `CallStack.withinBounds` bounds all of them.
-/

namespace CalendarQuery.Compiler

/-- A call that is under way, at some depth of attached filters and while some virtual paths are
being resolved. -/
inductive Frame
  /-- An expression is compiled. -/
  | expression (depth : Nat) (resolving : List String) (text : String)
  /-- A path is resolved, with the filters attached along it if `narrow`. -/
  | path (depth : Nat) (resolving : List String) (narrow : Bool) (vpath : String)
  /-- A collection is expanded: the first one of the trail, inside the others. -/
  | member (depth : Nat) (resolving : List String) (narrow : Bool) (trail : List String)
  deriving DecidableEq, Repr

namespace Frame

/-- How many attached filters are being compiled. -/
def depth : Frame → Nat
  | expression depth _ _ => depth
  | path depth _ _ _ => depth
  | member depth _ _ _ => depth

/-- The collections that are being expanded for one path, the innermost first. -/
def trail : Frame → List String
  | expression .. => []
  | path .. => []
  | member _ _ _ trail => trail

/-- The bounds of a call. -/
def Within (store : Store) (limits : Limits) (f : Frame) : Prop :=
  f.depth ≤ limits.maxAliasDepth ∧ f.trail.Nodup ∧ (∀ path ∈ f.trail, path ∈ store.paths) ∧
    f.trail.length ≤ store.collections.length + 1

instance (store : Store) (limits : Limits) (f : Frame) : Decidable (f.Within store limits) :=
  inferInstanceAs (Decidable (_ ∧ _ ∧ _ ∧ _))

/-- The calls that a call can make. A filter is compiled on behalf of the path whose chain it is
attached along, or of the alias that is being expanded. -/
inductive Calls (store : Store) (limits : Limits) : Frame → Frame → Prop
  | path {depth : Nat} {resolving : List String} {text : String} (narrow : Bool) (vpath : String) :
    Calls store limits (.expression depth resolving text) (.path depth resolving narrow vpath)
  | chained {depth : Nat} {resolving : List String} {vpath owner expression : String}
    (hnew : vpath ∉ resolving) (hdepth : depth < limits.maxAliasDepth)
    (hattached : store.Attaches owner expression) :
    Calls store limits (.path depth resolving true vpath)
      (.expression (depth + 1) (vpath :: resolving) expression)
  | target {depth : Nat} {resolving : List String} {narrow : Bool} {vpath path : String}
    (hnew : vpath ∉ resolving) (hpath : path ∈ store.paths) :
    Calls store limits (.path depth resolving narrow vpath) (.member depth resolving narrow [path])
  | member {depth : Nat} {resolving : List String} {narrow : Bool} {trail : List String}
    {path : String} (hpath : path ∈ store.paths) (hnew : path ∉ trail) :
    Calls store limits (.member depth resolving narrow trail)
      (.member depth resolving narrow (path :: trail))
  | linked {depth : Nat} {resolving trail : List String} {owner expression : String}
    (hdepth : depth < limits.maxAliasDepth) (hattached : store.Attaches owner expression) :
    Calls store limits (.member depth resolving true (owner :: trail))
      (.expression (depth + 1) (owner :: resolving) expression)

variable {store : Store} {limits : Limits} {f g : Frame}

/-- A trail without repetitions is no longer than the list of paths. -/
theorem within_of_nodup (hdepth : f.depth ≤ limits.maxAliasDepth) (hnodup : f.trail.Nodup)
    (hpaths : ∀ path ∈ f.trail, path ∈ store.paths) : f.Within store limits := by
  have hlength : f.trail.length ≤ store.paths.length := (hnodup.subperm hpaths).length_le
  rw [Store.paths, List.length_cons, List.length_map] at hlength
  exact ⟨hdepth, hnodup, hpaths, hlength⟩

/-- Whatever a call calls keeps to the bounds. -/
theorem Calls.within (h : Calls store limits f g) (hf : f.Within store limits) :
    g.Within store limits := by
  obtain ⟨hdepth, hnodup, hpaths, -⟩ := hf
  cases h with
  | path narrow vpath => exact within_of_nodup hdepth List.nodup_nil (by simp [trail])
  | chained hnew hlt hattached => exact within_of_nodup hlt List.nodup_nil (by simp [trail])
  | target hnew hpath =>
    exact within_of_nodup hdepth (by simp [trail]) (by simpa [trail] using hpath)
  | member hpath hnew =>
    exact within_of_nodup hdepth (List.nodup_cons.mpr ⟨hnew, hnodup⟩)
      (List.forall_mem_cons.mpr ⟨hpath, hpaths⟩)
  | linked hlt hattached => exact within_of_nodup hlt List.nodup_nil (by simp [trail])

/-- The most calls of one level: its expression, a path, and the collections of a trail. -/
def callsPerLevel (store : Store) : Nat := store.collections.length + 3

/-- How many calls there can be down to a call, if each level has up to `width` of them. -/
def place (width : Nat) : Frame → Nat
  | expression depth _ _ => depth * width + 1
  | path depth _ _ _ => depth * width + 2
  | member depth _ _ trail => depth * width + 2 + trail.length

theorem Calls.place_lt (h : Calls store limits f g) (hf : f.Within store limits) :
    f.place (callsPerLevel store) < g.place (callsPerLevel store) := by
  obtain ⟨-, -, -, hlength⟩ := hf
  cases h with
  | path narrow vpath => simp [place]
  | chained hnew hlt hattached =>
    simp only [place, Nat.succ_mul, callsPerLevel]
    omega
  | target hnew hpath => simp [place]
  | member hpath hnew => simp [place]
  | linked hlt hattached =>
    simp only [trail, List.length_cons] at hlength
    simp only [place, Nat.succ_mul, callsPerLevel, List.length_cons]
    omega

theorem place_le (hf : f.Within store limits) :
    f.place (callsPerLevel store) ≤ (limits.maxAliasDepth + 1) * callsPerLevel store := by
  obtain ⟨hdepth, -, -, hlength⟩ := hf
  have hlevels := Nat.mul_le_mul_right (callsPerLevel store) hdepth
  rw [Nat.succ_mul]
  cases f with
  | expression depth resolving text =>
    simp only [place, Frame.depth, callsPerLevel] at hlevels ⊢
    omega
  | path depth resolving narrow vpath =>
    simp only [place, Frame.depth, callsPerLevel] at hlevels ⊢
    omega
  | member depth resolving narrow trail =>
    simp only [place, Frame.depth, Frame.trail, callsPerLevel] at hlevels hlength ⊢
    omega

end Frame

/-- The innermost of some calls and those around it, the outermost of which compiles a text. -/
inductive CallStack (store : Store) (limits : Limits) (text : String) : Frame → List Frame → Prop
  | root : CallStack store limits text (.expression 0 [] text) []
  | call {caller callee : Frame} {below : List Frame}
    (hstack : CallStack store limits text caller below) (hcall : caller.Calls store limits callee) :
    CallStack store limits text callee (caller :: below)

/-- The bounds of nested calls. -/
def WithinBounds (store : Store) (limits : Limits) (stack : List Frame) : Prop :=
  stack.length ≤ (limits.maxAliasDepth + 1) * Frame.callsPerLevel store ∧
    ∀ f ∈ stack, f.Within store limits

instance (store : Store) (limits : Limits) (stack : List Frame) :
    Decidable (WithinBounds store limits stack) :=
  inferInstanceAs (Decidable (_ ∧ _))

variable {store : Store} {limits : Limits} {text : String} {top : Frame} {below : List Frame}

/-- The bounds, by induction on the calls: each one keeps to those of a call, and comes after its
caller. -/
theorem CallStack.within (h : CallStack store limits text top below) :
    (∀ f ∈ top :: below, f.Within store limits) ∧
      (top :: below).length ≤ top.place (Frame.callsPerLevel store) := by
  induction h with
  | root =>
    refine ⟨List.forall_mem_singleton.mpr ?_, by simp [Frame.place]⟩
    exact Frame.within_of_nodup (Nat.zero_le _) List.nodup_nil (by simp [Frame.trail])
  | call hstack hcall ih =>
    obtain ⟨hwithin, hlength⟩ := ih
    have hcaller := hwithin _ List.mem_cons_self
    refine ⟨List.forall_mem_cons.mpr ⟨hcall.within hcaller, hwithin⟩, ?_⟩
    rw [List.length_cons]
    exact Nat.succ_le_of_lt (Nat.lt_of_le_of_lt hlength (hcall.place_lt hcaller))

theorem CallStack.withinBounds (h : CallStack store limits text top below) :
    WithinBounds store limits (top :: below) := by
  obtain ⟨hwithin, hlength⟩ := h.within
  exact ⟨Nat.le_trans hlength (Frame.place_le (hwithin top List.mem_cons_self)), hwithin⟩

theorem CallStack.length_trail_le {depth : Nat} {resolving trail : List String} {narrow : Bool}
    (h : CallStack store limits text (.member depth resolving narrow trail) below) :
    trail.length ≤ store.paths.length := by
  obtain ⟨-, -, -, hlength⟩ := h.withinBounds.2 _ List.mem_cons_self
  rw [Store.paths, List.length_cons, List.length_map]
  exact hlength

end CalendarQuery.Compiler

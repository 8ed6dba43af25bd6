import CalendarQuery.Proofs.Expression.Trace

/-!
# The stacks fit together

Each part of the parser finds the stacks of all levels as it needs them, and leaves them as the part
around it does. So none of the operations on the stacks fails for want of an entry or of a filter.

* `Stacks.Leaves`: what a level or a factor leaves of the stacks that it found.
* `Parser.Task.Ready`: the stacks at the start of a part.
* `Parser.Event.Sound`: an operation finds on the stacks what it needs.
* `Parser.Trace.sound`, `ExpressionTrace.sound`: everything that the parser does is sound.
-/

namespace CalendarQuery

open Compilation Stacks

namespace Stacks

/-- The entries without the operator that the innermost level has chosen. -/
def unchosen : List StackEntry → List StackEntry
  | [] => []
  | .pending op :: entries => .pending op :: unchosen entries
  | .level _ :: entries => .level none :: entries

/-- An operator waits on top. -/
def waits (s : Stacks) : Bool :=
  match s.entries with
  | .pending _ :: _ => true
  | _ => false

/-- The entries without an operator that waits on top. -/
def settled (s : Stacks) : List StackEntry :=
  match s.entries with
  | .pending _ :: entries => entries
  | entries => entries

/-- What a level or a factor leaves of the stacks `s`: the entries are the same up to the operator
that the innermost level has chosen, except that no operator waits on top any more, and there is one
filter more unless one waited. -/
structure Leaves (s s' : Stacks) : Prop where
  entries : unchosen s'.entries = unchosen s.settled
  filters : s'.filters.length = s.filters.length + if s.waits then 0 else 1

/-- A filter more inside a level, where nothing waits. -/
theorem leaves_inside (w : Option (Filter × LogicalOp)) (es : List StackEntry) (fs : List Filter)
    (chosen : Option LogicalOp) (f : Filter) :
    (inside w es fs).Leaves ⟨.level chosen :: es, f :: fs⟩ := by
  rcases w with _ | ⟨left, op⟩
  · exact ⟨rfl, rfl⟩
  · exact ⟨rfl, rfl⟩

/-- Inside a level, two filters are there for an operator that waits. -/
theorem two_le_filters_push_inside {w : Option (Filter × LogicalOp)} {es : List StackEntry}
    {fs : List Filter} {f : Filter} (h : ((inside w es fs).push f).waits = true) :
    2 ≤ ((inside w es fs).push f).filters.length := by
  rcases w with _ | ⟨left, op⟩
  · cases h
  · simp only [push, inside, List.length_cons]
    omega

end Stacks

namespace Parser

variable {compile : Comparison → Compilation Filter} {n : Nat} {p q : Parser} {m m' : Memos}
  {w : Option (Filter × LogicalOp)} {es : List StackEntry} {fs : List Filter}

/-! ## What is on the stacks behind a level and behind a factor -/

theorem keeps_true {α : Type} (c : Compilation α) :
    Keeps (fun _ => True) (fun _ => True) (fun _ => True) c :=
  fun _ _ => ⟨fun _ => trivial, fun _ _ => trivial, fun _ _ => trivial⟩

/-- Nothing is known of the lexer and of the filters: the stacks are what it is about. -/
def anything : Reading := ⟨fun _ => True, fun _ => True, fun _ => True⟩

theorem keeps_readTerm (n : Nat) (hp : p.stack = inside w es fs) :
    Keeps (fun _ => True) (fun _ => True) (LevelRead anything (fun _ => True) p es fs)
      (readTerm compile n p) :=
  judge_readTerm (d := fun _ : Unit => compile) (judgment_keeps _ _) Filter.inherited_true
    Reading.lawful_true (fun _ => trivial) (fun c _ => keeps_true (compile c)) p n w es fs trivial hp
    fun _ _ => trivial

theorem keeps_readFactor (n : Nat) (hp : p.stack = inside w es fs) :
    Keeps (fun _ => True) (fun _ => True) (LevelRead anything (fun _ => True) p es fs)
      (readFactor compile n p) :=
  judge_readFactor (d := fun _ : Unit => compile) (judgment_keeps _ _) Filter.inherited_true
    Reading.lawful_true (fun _ => trivial) (fun c _ => keeps_true (compile c))
    (fun _ _ n _ _ _ _ hp' _ => keeps_readTerm n hp') n trivial hp fun _ _ => trivial

theorem stack_of_keeps {c : Compilation Parser}
    (hc : Keeps (fun _ => True) (fun _ => True) (LevelRead anything (fun _ => True) p es fs) c)
    (h : c.outcome m = (.ok q, m')) : ∃ chosen f, q.stack = ⟨.level chosen :: es, f :: fs⟩ := by
  obtain ⟨-, -, chosen, f, -, hstack⟩ := (hc m fun _ => trivial).2.1 q (by rw [h])
  exact ⟨chosen, f, hstack⟩

theorem stack_readTerm (hp : p.stack = inside w es fs)
    (h : (readTerm compile n p).outcome m = (.ok q, m')) :
    ∃ chosen f, q.stack = ⟨.level chosen :: es, f :: fs⟩ :=
  stack_of_keeps (keeps_readTerm n hp) h

theorem stack_readFactor (hp : p.stack = inside w es fs)
    (h : (readFactor compile n p).outcome m = (.ok q, m')) :
    ∃ chosen f, q.stack = ⟨.level chosen :: es, f :: fs⟩ :=
  stack_of_keeps (keeps_readFactor n hp) h

/-! ## What the parser does -/

/-- The stacks at the start of a part: a level or a factor starts inside a level, behind a factor the
level has a filter for which nothing waits, and the same holds before a closing parenthesis, with
the level around it below. -/
def Task.Ready : Task → Prop
  | .level _ p | .factor _ p => ∃ w es fs, p.stack = inside w es fs
  | .further _ p => ∃ chosen f es fs, p.stack = ⟨.level chosen :: es, f :: fs⟩
  | .closing p => ∃ chosen f w es fs,
    p.stack = ⟨.level chosen :: (inside w es fs).entries, f :: (inside w es fs).filters⟩

/-- What the parser does finds on the stacks what it needs: an operator is chosen where a level has
begun, two filters are there for an operator that waits, a level ends that is on top, and in the end
there are the outermost level and one filter. A level or a factor that succeeds leaves the stacks as
it should. -/
def Event.Sound (compile : Comparison → Compilation Filter) : Event → Prop
  | .begun task m => ∀ q m', (task.run compile).outcome m = (.ok q, m') →
    task.start.stack.Leaves q.stack
  | .used _ => True
  | .chosen s _ => ∃ chosen, .level chosen ∈ s.entries
  | .folded s => s.waits = true → 2 ≤ s.filters.length
  | .closed s => ∃ chosen, s.entries.head? = some (.level chosen)
  | .finished s => s.entries.length = 1 ∧ s.filters.length = 1

theorem sound_used (us : List Lexer.Use) :
    ∀ e ∈ us.map Event.used, e.Sound compile := by
  intro e he
  obtain ⟨u, -, rfl⟩ := List.mem_map.mp he
  trivial

variable {t : Task}

/-- A part that starts inside a level, and leaves it with a filter more. -/
theorem sound_begun (hstart : t.start.stack = inside w es fs)
    (hstack : ∀ q m', (t.run compile).outcome m = (.ok q, m') →
      ∃ chosen f, q.stack = ⟨.level chosen :: es, f :: fs⟩) : (Event.begun t m).Sound compile := by
  intro q m' h
  obtain ⟨chosen, f, hq⟩ := hstack q m' h
  rw [hstart, hq]
  exact leaves_inside w es fs chosen f

theorem sound_level (hp : p.stack = inside w es fs) :
    (Event.begun (.level n p) m).Sound compile :=
  sound_begun hp fun _ _ => stack_readTerm hp

theorem sound_factor (hp : p.stack = inside w es fs) :
    (Event.begun (.factor n p) m).Sound compile :=
  sound_begun hp fun _ _ => stack_readFactor hp

variable {events : List Event} {r : Except QueryError Parser × Memos}

/-- Everything that a part of the parser does is sound, if the stacks are ready for it. The induction
is on the trace; the parts of a part find what the ones before them leave. -/
theorem Trace.sound (h : Trace compile t m events r) (hready : t.Ready) :
    ∀ e ∈ events, e.Sound compile := by
  induction h with
  | @level n p q m m' es es' r hfactor _ ih ih' =>
    obtain ⟨w, ls, fs, hp⟩ := hready
    obtain ⟨chosen, f, hq⟩ := stack_readFactor hp hfactor.outcome_eq
    refine List.forall_mem_cons.mpr ⟨sound_level hp, List.forall_mem_append.mpr ⟨?_, ?_⟩⟩
    · exact ih ⟨w, ls, fs, hp⟩
    · exact ih' ⟨chosen, f, ls, fs, hq⟩
  | levelFailed _ ih =>
    obtain ⟨w, ls, fs, hp⟩ := hready
    exact List.forall_mem_cons.mpr ⟨sound_level hp, ih ⟨w, ls, fs, hp⟩⟩
  | @further n q x l op stack m es r _ _ hchoose _ ih =>
    obtain ⟨chosen, f, ls, fs, hq⟩ := hready
    have hmarker : ∃ chosen, .level chosen ∈ q.stack.entries := by simp [hq]
    refine List.forall_mem_cons.mpr ⟨trivial, List.forall_mem_cons.mpr ⟨hmarker, ?_⟩⟩
    -- The operator is one that the level can have, and waits for the next factor.
    refine ih ⟨some (f, op), ls, fs, ?_⟩
    by_cases hchosen : chosen = none ∨ chosen = some op
    · rw [hq, choose_level ls (f :: fs) hchosen] at hchoose
      cases hchoose
      rfl
    · rw [hq, choose_level_ne ls (f :: fs) hchosen] at hchoose
      cases hchoose
  | furtherUnread _ => exact List.forall_mem_singleton.mpr trivial
  | furtherMixed _ _ _ =>
    obtain ⟨chosen, f, ls, fs, hq⟩ := hready
    exact List.forall_mem_cons.mpr ⟨trivial, List.forall_mem_singleton.mpr ⟨chosen, by simp [hq]⟩⟩
  | furtherEnded _ _ =>
    obtain ⟨chosen, f, ls, fs, hq⟩ := hready
    refine List.forall_mem_cons.mpr ⟨trivial, List.forall_mem_cons.mpr ⟨trivial, ?_⟩⟩
    exact List.forall_mem_singleton.mpr fun hwaits => by simp [hq, waits] at hwaits
  | @group n p q x l m m' es es' r _ _ _ hlevel _ ih ih' =>
    obtain ⟨w, ls, fs, hp⟩ := hready
    have hopen := (congrArg openLevel hp).trans (openLevel_inside w ls fs)
    obtain ⟨chosen, f, hq⟩ := stack_readTerm hopen hlevel.outcome_eq
    refine List.forall_mem_cons.mpr ⟨sound_factor hp, List.forall_mem_cons.mpr ⟨trivial, ?_⟩⟩
    refine List.forall_mem_append.mpr ⟨ih ⟨none, _, _, hopen⟩, ih' ⟨chosen, f, w, ls, fs, hq⟩⟩
  | @groupFailed n p x l m m' es cause _ _ _ _ ih =>
    obtain ⟨w, ls, fs, hp⟩ := hready
    have hopen := (congrArg openLevel hp).trans (openLevel_inside w ls fs)
    exact List.forall_mem_cons.mpr ⟨sound_factor hp,
      List.forall_mem_cons.mpr ⟨trivial, ih ⟨none, _, _, hopen⟩⟩⟩
  | groupTooDeep _ _ _ | factorUnread _ =>
    obtain ⟨w, ls, fs, hp⟩ := hready
    exact List.forall_mem_cons.mpr ⟨sound_factor hp, List.forall_mem_singleton.mpr trivial⟩
  | comparison _ _ _ _ =>
    obtain ⟨w, ls, fs, hp⟩ := hready
    refine List.forall_mem_cons.mpr ⟨sound_factor hp, List.forall_mem_cons.mpr ⟨trivial, ?_⟩⟩
    refine List.forall_mem_append.mpr ⟨sound_used _, List.forall_mem_singleton.mpr ?_⟩
    rw [hp]
    exact two_le_filters_push_inside
  | comparisonFailed _ _ _ _ | comparisonUnread _ _ _ =>
    obtain ⟨w, ls, fs, hp⟩ := hready
    exact List.forall_mem_cons.mpr ⟨sound_factor hp, List.forall_mem_cons.mpr ⟨trivial, sound_used _⟩⟩
  | @closing q x l stack m _ _ hclose =>
    obtain ⟨chosen, f, w, ls, fs, hq⟩ := hready
    have htop : ∃ chosen, q.stack.entries.head? = some (.level chosen) := ⟨chosen, by simp [hq]⟩
    refine List.forall_mem_cons.mpr ⟨trivial, List.forall_mem_cons.mpr ⟨htop, ?_⟩⟩
    rw [hq, closeLevel] at hclose
    cases hclose
    exact List.forall_mem_singleton.mpr (two_le_filters_push_inside (w := w) (f := f))
  | closingUnopened _ _ _ =>
    obtain ⟨chosen, f, w, ls, fs, hq⟩ := hready
    exact List.forall_mem_cons.mpr ⟨trivial, List.forall_mem_singleton.mpr ⟨chosen, by simp [hq]⟩⟩
  | closingOther _ _ | closingUnread _ => exact List.forall_mem_singleton.mpr trivial

end Parser

namespace ExpressionTrace

open CalendarQuery.Parser

variable {compile : Comparison → Compilation Filter} {text : String} {m : Memos}
  {events : List Event} {r : Except QueryError Filter × Memos}

/-- Everything that is done for an expression is sound. -/
theorem sound (h : ExpressionTrace compile text m events r) : ∀ e ∈ events, e.Sound compile := by
  have hready : (Task.level 0 ⟨Lexer.ofString text, .start⟩).Ready := ⟨none, [], [], rfl⟩
  cases h with
  | finished hlevel _ _ =>
    obtain ⟨chosen, f, hstack⟩ := stack_readTerm (w := none) rfl hlevel.outcome_level
    refine List.forall_mem_append.mpr ⟨hlevel.sound hready, ?_⟩
    refine List.forall_mem_cons.mpr ⟨trivial, List.forall_mem_singleton.mpr ?_⟩
    simp [Event.Sound, hstack]
  | trailing hlevel _ _ | unread hlevel _ =>
    exact List.forall_mem_append.mpr ⟨hlevel.sound hready, List.forall_mem_singleton.mpr trivial⟩
  | failed hlevel => exact hlevel.sound hready

end ExpressionTrace

end CalendarQuery

import CalendarQuery.Proofs.Comparison.Uses
import CalendarQuery.Proofs.Expression.Judgment

/-!
# What the parser does on the way

A trace of the parser lists what it does, one event after the other: where a level or a factor
begins, what it does with the lexer, and which of the operations on its stacks it carries out on
which stacks. Traces follow the text of the parser, and each comes to what the parser gives.

* `Parser.Task`: the parts of the parser. `Parser.Event`: what is traced.
* `Parser.Trace`: the events of a part, with one rule for each way that it can go.
* `Parser.Trace.outcome_eq`, `Parser.exists_trace`: the traces of a part are those of its outcome.
* `ExpressionTrace`: the events of a whole expression.
* `ExpressionTrace.orderly`: what it does with the lexer is orderly.
-/

namespace CalendarQuery

open Compilation Stacks
open Lexer (Use Orderly)

namespace Parser

/-- A part of the parser, where it starts. -/
inductive Task
  /-- The factors of one level and the operators between them. -/
  | level (nesting : Nat) (p : Parser)
  | factor (nesting : Nat) (p : Parser)
  /-- What follows a factor in its level. -/
  | further (nesting : Nat) (p : Parser)
  /-- A closing parenthesis. -/
  | closing (p : Parser)

namespace Task

/-- Where the part starts. -/
def start : Task → Parser
  | level _ p | factor _ p | further _ p | closing p => p

/-- The part as a compilation. -/
def run (compile : Comparison → Compilation Filter) : Task → Compilation Parser
  | level n p => readTerm compile n p
  | factor n p => readFactor compile n p
  | further n p => resume compile n p
  | closing p => readClose p

end Task

/-- What the parser does. -/
inductive Event
  /-- A level or a factor begins. -/
  | begun (task : Task) (m : Memos)
  /-- The lexer carries out an operation. -/
  | used (use : Use)
  /-- An operator is chosen at the innermost level. -/
  | chosen (stack : Stacks) (op : LogicalOp)
  /-- Two filters are combined if an operator waits for them. -/
  | folded (stack : Stacks)
  /-- The innermost level ends. -/
  | closed (stack : Stacks)
  /-- The filter of the whole expression is taken off the stacks. -/
  | finished (stack : Stacks)

/-- What the parser does with the lexer. -/
def uses (events : List Event) : List Use :=
  events.filterMap fun e => match e with
    | .used u => some u
    | _ => none

@[simp] theorem uses_nil : uses [] = [] := rfl

@[simp] theorem uses_append (es es' : List Event) : uses (es ++ es') = uses es ++ uses es' :=
  List.filterMap_append

@[simp] theorem uses_used (u : Use) (es : List Event) : uses (.used u :: es) = u :: uses es := rfl

@[simp] theorem uses_begun (t : Task) (m : Memos) (es : List Event) :
    uses (.begun t m :: es) = uses es := rfl

@[simp] theorem uses_chosen (s : Stacks) (op : LogicalOp) (es : List Event) :
    uses (.chosen s op :: es) = uses es := rfl

@[simp] theorem uses_folded (s : Stacks) (es : List Event) : uses (.folded s :: es) = uses es := rfl

@[simp] theorem uses_closed (s : Stacks) (es : List Event) : uses (.closed s :: es) = uses es := rfl

@[simp] theorem uses_finished (s : Stacks) (es : List Event) :
    uses (.finished s :: es) = uses es := rfl

@[simp] theorem uses_map_used (us : List Use) : uses (us.map .used) = us := by
  induction us with
  | nil => rfl
  | cons u us ih => rw [List.map_cons, uses_used, ih]

/-- The events of a part of the parser, from given memos, and what it comes to. -/
inductive Trace (compile : Comparison → Compilation Filter) :
    Task → Memos → List Event → Except QueryError Parser × Memos → Prop
  | level {n : Nat} {p q : Parser} {m m' : Memos} {es es' : List Event}
    {r : Except QueryError Parser × Memos} :
    Trace compile (.factor n p) m es (.ok q, m') → Trace compile (.further n q) m' es' r →
    Trace compile (.level n p) m (.begun (.level n p) m :: (es ++ es')) r
  | levelFailed {n : Nat} {p : Parser} {m m' : Memos} {es : List Event} {cause : QueryError} :
    Trace compile (.factor n p) m es (.error cause, m') →
    Trace compile (.level n p) m (.begun (.level n p) m :: es) (.error cause, m')
  | further {n : Nat} {q : Parser} {x : Lexeme} {l : Lexer} {op : LogicalOp} {stack : Stacks}
    {m : Memos} {es : List Event} {r : Except QueryError Parser × Memos} :
    q.lexer.next = .ok (x, l) → x.token.logicalOp? = some op → q.stack.choose op = .ok stack →
    Trace compile (.level n ⟨l, stack.pend op⟩) m es r →
    Trace compile (.further n q) m (.used (.next q.lexer) :: .chosen q.stack op :: es) r
  | furtherUnread {n : Nat} {q : Parser} {m : Memos} {cause : QueryError} :
    q.lexer.next = .error cause →
    Trace compile (.further n q) m [.used (.next q.lexer)] (.error cause, m)
  | furtherMixed {n : Nat} {q : Parser} {x : Lexeme} {l : Lexer} {op : LogicalOp} {m : Memos}
    {cause : QueryError} :
    q.lexer.next = .ok (x, l) → x.token.logicalOp? = some op → q.stack.choose op = .error cause →
    Trace compile (.further n q) m [.used (.next q.lexer), .chosen q.stack op] (.error cause, m)
  | furtherEnded {n : Nat} {q : Parser} {x : Lexeme} {l : Lexer} {m : Memos} :
    q.lexer.next = .ok (x, l) → x.token.logicalOp? = none →
    Trace compile (.further n q) m
      [.used (.next q.lexer), .used (.back l x), .folded q.stack]
      (q.stack.foldPending.map fun stack => ⟨l.pushBack x, stack⟩, m)
  | group {n : Nat} {p q : Parser} {x : Lexeme} {l : Lexer} {m m' : Memos} {es es' : List Event}
    {r : Except QueryError Parser × Memos} :
    p.lexer.next = .ok (x, l) → x.token = .symbol '(' → n < maxNesting →
    Trace compile (.level (n + 1) ⟨l, p.stack.openLevel⟩) m es (.ok q, m') →
    Trace compile (.closing q) m' es' r →
    Trace compile (.factor n p) m
      (.begun (.factor n p) m :: .used (.next p.lexer) :: (es ++ es')) r
  | groupFailed {n : Nat} {p : Parser} {x : Lexeme} {l : Lexer} {m m' : Memos} {es : List Event}
    {cause : QueryError} :
    p.lexer.next = .ok (x, l) → x.token = .symbol '(' → n < maxNesting →
    Trace compile (.level (n + 1) ⟨l, p.stack.openLevel⟩) m es (.error cause, m') →
    Trace compile (.factor n p) m (.begun (.factor n p) m :: .used (.next p.lexer) :: es)
      (.error cause, m')
  | groupTooDeep {n : Nat} {p : Parser} {x : Lexeme} {l : Lexer} {m : Memos} :
    p.lexer.next = .ok (x, l) → x.token = .symbol '(' → maxNesting ≤ n →
    Trace compile (.factor n p) m [.begun (.factor n p) m, .used (.next p.lexer)]
      (.error (.nestingTooDeep maxNesting), m)
  | factorUnread {n : Nat} {p : Parser} {m : Memos} {cause : QueryError} :
    p.lexer.next = .error cause →
    Trace compile (.factor n p) m [.begun (.factor n p) m, .used (.next p.lexer)] (.error cause, m)
  | comparison {n : Nat} {p : Parser} {x : Lexeme} {l l' : Lexer} {c : Comparison} {f : Filter}
    {m m' : Memos} {us : List Use} :
    p.lexer.next = .ok (x, l) → x.token ≠ .symbol '(' →
    Reader.Trace (Comparison.read x) l us (.ok (c, l')) → (compile c).outcome m = (.ok f, m') →
    Trace compile (.factor n p) m
      (.begun (.factor n p) m :: .used (.next p.lexer) ::
        (us.map .used ++ [.folded (p.stack.push f)]))
      ((p.stack.push f).foldPending.map fun stack => ⟨l', stack⟩, m')
  | comparisonFailed {n : Nat} {p : Parser} {x : Lexeme} {l l' : Lexer} {c : Comparison}
    {m m' : Memos} {us : List Use} {cause : QueryError} :
    p.lexer.next = .ok (x, l) → x.token ≠ .symbol '(' →
    Reader.Trace (Comparison.read x) l us (.ok (c, l')) →
    (compile c).outcome m = (.error cause, m') →
    Trace compile (.factor n p) m
      (.begun (.factor n p) m :: .used (.next p.lexer) :: us.map .used) (.error cause, m')
  | comparisonUnread {n : Nat} {p : Parser} {x : Lexeme} {l : Lexer} {m : Memos} {us : List Use}
    {cause : QueryError} :
    p.lexer.next = .ok (x, l) → x.token ≠ .symbol '(' →
    Reader.Trace (Comparison.read x) l us (.error cause) →
    Trace compile (.factor n p) m
      (.begun (.factor n p) m :: .used (.next p.lexer) :: us.map .used) (.error cause, m)
  | closing {q : Parser} {x : Lexeme} {l : Lexer} {stack : Stacks} {m : Memos} :
    q.lexer.next = .ok (x, l) → x.token = .symbol ')' → q.stack.closeLevel = .ok stack →
    Trace compile (.closing q) m [.used (.next q.lexer), .closed q.stack, .folded stack]
      (stack.foldPending.map fun stack => ⟨l, stack⟩, m)
  | closingUnopened {q : Parser} {x : Lexeme} {l : Lexer} {m : Memos} {cause : QueryError} :
    q.lexer.next = .ok (x, l) → x.token = .symbol ')' → q.stack.closeLevel = .error cause →
    Trace compile (.closing q) m [.used (.next q.lexer), .closed q.stack] (.error cause, m)
  | closingOther {q : Parser} {x : Lexeme} {l : Lexer} {m : Memos} :
    q.lexer.next = .ok (x, l) → x.token ≠ .symbol ')' →
    Trace compile (.closing q) m [.used (.next q.lexer)]
      (.error (if x.token = .eof then .unbalancedParentheses
        else .unexpected x .operatorOrClosing), m)
  | closingUnread {q : Parser} {m : Memos} {cause : QueryError} :
    q.lexer.next = .error cause →
    Trace compile (.closing q) m [.used (.next q.lexer)] (.error cause, m)

variable {compile : Comparison → Compilation Filter} {t : Task} {m : Memos} {es : List Event}
  {r : Except QueryError Parser × Memos}

/-- A step that needs no memos, and then a value. -/
theorem outcome_ofExcept_map {α β : Type} (o : Except QueryError α) (f : α → β) (m : Memos) :
    (Compilation.ofExcept o >>= fun a => pure (f a)).outcome m = (o.map f, m) := by
  cases o with
  | ok a => rfl
  | error cause => rfl

/-- A trace comes to what the part gives. -/
theorem Trace.outcome_eq (h : Trace compile t m es r) : (t.run compile).outcome m = r := by
  induction h with
  | level _ _ ih ih' =>
    simp only [Task.run] at ih ih' ⊢
    rw [readTerm_eq, outcome_bind_of_ok ih, ih']
  | levelFailed _ ih =>
    simp only [Task.run] at ih ⊢
    rw [readTerm_eq, outcome_bind_of_error ih]
  | further hn hop hchoose _ ih =>
    simp only [Task.run] at ih ⊢
    rw [resume, hn]
    simpa [Compilation.ofExcept, hop, hchoose] using ih
  | furtherUnread hn =>
    simp only [Task.run]
    rw [resume, hn]
    rfl
  | furtherMixed hn hop hchoose =>
    simp only [Task.run]
    rw [resume, hn]
    simp [Compilation.ofExcept, hop, hchoose]
  | furtherEnded hn hop =>
    simp only [Task.run]
    rw [resume, hn]
    simp only [Compilation.ofExcept, pure_bind, hop]
    exact outcome_ofExcept_map _ _ _
  | group hn hx hlt _ _ ih ih' =>
    simp only [Task.run] at ih ih' ⊢
    rw [readFactor_group compile hlt hn hx, outcome_bind_of_ok ih, ih']
  | groupFailed hn hx hlt _ ih =>
    simp only [Task.run] at ih ⊢
    rw [readFactor_group compile hlt hn hx, outcome_bind_of_error ih]
  | groupTooDeep hn hx hle =>
    simp only [Task.run]
    rw [readFactor_eq, hn]
    simp [Compilation.ofExcept, hx, hle]
  | factorUnread hn =>
    simp only [Task.run]
    rw [readFactor_eq, hn]
    rfl
  | comparison hn _ hread hcompile =>
    simp only [Task.run]
    rw [readFactor_comparison compile hn hread.result_eq, outcome_bind_of_ok hcompile]
    exact outcome_ofExcept_map _ _ _
  | comparisonFailed hn _ hread hcompile =>
    simp only [Task.run]
    rw [readFactor_comparison compile hn hread.result_eq, outcome_bind_of_error hcompile]
  | comparisonUnread hn hx hread =>
    simp only [Task.run]
    rw [readFactor_eq, hn]
    simp [Compilation.ofExcept, hx, hread.result_eq]
  | closing hn hx hclose =>
    simp only [Task.run]
    rw [readClose_symbol hn hx, hclose]
    exact outcome_ofExcept_map _ _ _
  | closingUnopened hn hx hclose =>
    simp only [Task.run]
    rw [readClose_symbol hn hx, hclose]
    rfl
  | closingOther hn hx =>
    simp only [Task.run]
    rw [readClose_other hn hx]
    rfl
  | closingUnread hn =>
    simp only [Task.run]
    rw [readClose_of_error hn]
    rfl

theorem Trace.outcome_level {n : Nat} {p : Parser} (h : Trace compile (.level n p) m es r) :
    (readTerm compile n p).outcome m = r := h.outcome_eq

/-! ## Every part has a trace -/

/-- The part has a trace, from any memos. -/
def Traced (compile : Comparison → Compilation Filter) (t : Task) : Prop :=
  ∀ m, ∃ es r, Trace compile t m es r

theorem traced_closing (q : Parser) : Traced compile (.closing q) := by
  intro m
  rcases hn : q.lexer.next with cause | ⟨x, l⟩
  · exact ⟨_, _, .closingUnread hn⟩
  · by_cases hx : x.token = .symbol ')'
    · cases hclose : q.stack.closeLevel with
      | error cause => exact ⟨_, _, .closingUnopened hn hx hclose⟩
      | ok stack => exact ⟨_, _, .closing hn hx hclose⟩
    · exact ⟨_, _, .closingOther hn hx⟩

/-- What follows a factor, given the levels of what is left. -/
theorem traced_further {n : Nat} {q : Parser}
    (ih : ∀ p : Parser, p.lexer.size ≤ q.lexer.size → Traced compile (.level n p)) :
    Traced compile (.further n q) := by
  intro m
  rcases hn : q.lexer.next with cause | ⟨x, l⟩
  · exact ⟨_, _, .furtherUnread hn⟩
  · cases hop : x.token.logicalOp? with
    | none => exact ⟨_, _, .furtherEnded hn hop⟩
    | some op =>
      cases hchoose : q.stack.choose op with
      | error cause => exact ⟨_, _, .furtherMixed hn hop hchoose⟩
      | ok stack =>
        obtain ⟨es, r, h⟩ := ih ⟨l, stack.pend op⟩ (Lexer.size_next_le hn) m
        exact ⟨_, _, .further hn hop hchoose h⟩

/-- A factor, given the levels of what is left behind its first token. -/
theorem traced_factor {n : Nat} {p : Parser}
    (ih : ∀ p' : Parser, p'.lexer.size < p.lexer.size → ∀ n, Traced compile (.level n p')) :
    Traced compile (.factor n p) := by
  intro m
  rcases hn : p.lexer.next with cause | ⟨x, l⟩
  · exact ⟨_, _, .factorUnread hn⟩
  · by_cases hx : x.token = .symbol '('
    · by_cases hle : maxNesting ≤ n
      · exact ⟨_, _, .groupTooDeep hn hx hle⟩
      · have hlt : n < maxNesting := Nat.lt_of_not_le hle
        have hsize : l.size < p.lexer.size := Lexer.size_next_lt hn (by simp [hx])
        obtain ⟨es, ⟨cause | q, m'⟩, h⟩ := ih ⟨l, p.stack.openLevel⟩ hsize (n + 1) m
        · exact ⟨_, _, .groupFailed hn hx hlt h⟩
        · obtain ⟨es', r, h'⟩ := traced_closing q m'
          exact ⟨_, _, .group hn hx hlt h h'⟩
    · obtain ⟨us, cause | ⟨c, l'⟩, h⟩ := Comparison.traced_read x l
      · exact ⟨_, _, .comparisonUnread hn hx h⟩
      · rcases hcompile : (compile c).outcome m with ⟨cause | f, m'⟩
        · exact ⟨_, _, .comparisonFailed hn hx h hcompile⟩
        · exact ⟨_, _, .comparison hn hx h hcompile⟩

/-- The factors of a level; the induction is on what is left to read, which a factor shortens. -/
theorem traced_level (n : Nat) (p : Parser) : Traced compile (.level n p) := by
  induction hs : p.lexer.size using Nat.strongRecOn generalizing n p with
  | ind size ih =>
    subst hs
    intro m
    have ih' : ∀ p' : Parser, p'.lexer.size < p.lexer.size → ∀ n, Traced compile (.level n p') :=
      fun p' hlt n => ih _ hlt n p' rfl
    obtain ⟨es, ⟨cause | q, m'⟩, h⟩ := traced_factor ih' m
    · exact ⟨_, _, .levelFailed h⟩
    · have hsize : q.lexer.size < p.lexer.size := size_readFactor compile h.outcome_eq
      obtain ⟨es', r, h'⟩ :=
        traced_further (fun p' hle => ih' p' (Nat.lt_of_le_of_lt hle hsize) n) m'
      exact ⟨_, _, .level h h'⟩

/-! ## What the parser does with the lexer -/

/-- The lexer that is left, if the outcome leaves one. -/
def left (r : Except QueryError Parser × Memos) : Option Lexer := r.1.toOption.map Parser.lexer

theorem eq_of_mem_left {o : Except QueryError Stacks} {l : Lexer} {m : Memos} :
    ∀ l' ∈ left (o.map fun stack => ⟨l, stack⟩, m), l' ∈ some l := by
  cases o with
  | ok stack => exact fun _ h => h
  | error cause => nofun

/-- What a part of the parser does with the lexer is orderly. -/
theorem Trace.orderly (h : Trace compile t m es r) :
    Orderly t.start.lexer (uses es) (left r) := by
  induction h with
  | level _ _ ih ih' =>
    rw [uses_begun, uses_append]
    exact ih.append ih'
  | levelFailed _ ih =>
    rw [uses_begun]
    exact ih
  | further hn _ _ _ ih =>
    rw [uses_used, uses_chosen]
    exact (Orderly.next_ok hn).append ih
  | furtherUnread _ => exact (Orderly.next _).cut
  | furtherMixed _ _ _ => exact (Orderly.next _).cut
  | furtherEnded hn _ => exact (Orderly.returned hn).mono eq_of_mem_left
  | group hn _ _ _ _ ih ih' =>
    rw [uses_begun, uses_used, uses_append]
    exact (Orderly.next_ok hn).append (ih.append ih')
  | groupFailed hn _ _ _ ih =>
    rw [uses_begun, uses_used]
    exact (Orderly.next_ok hn).append ih
  | groupTooDeep _ _ _ => exact (Orderly.next _).cut
  | factorUnread _ => exact (Orderly.next _).cut
  | comparison hn _ hread _ =>
    rw [uses_begun, uses_used, uses_append, uses_map_used, uses_folded, uses_nil, List.append_nil]
    exact ((Orderly.next_ok hn).append hread.orderly).mono eq_of_mem_left
  | comparisonFailed hn _ hread _ =>
    rw [uses_begun, uses_used, uses_map_used]
    exact ((Orderly.next_ok hn).append hread.orderly).cut
  | comparisonUnread hn _ hread =>
    rw [uses_begun, uses_used, uses_map_used]
    exact ((Orderly.next_ok hn).append hread.orderly).cut
  | closing hn _ _ => exact (Orderly.next_ok hn).mono eq_of_mem_left
  | closingUnopened _ _ _ => exact (Orderly.next _).cut
  | closingOther _ _ => exact (Orderly.next _).cut
  | closingUnread _ => exact (Orderly.next _).cut

end Parser

/-! ## Whole expressions -/

open CalendarQuery.Parser

/-- The events of an expression, from given memos, and what it comes to. -/
inductive ExpressionTrace (compile : Comparison → Compilation Filter) (text : String) (m : Memos) :
    List Event → Except QueryError Filter × Memos → Prop
  | finished {p : Parser} {x : Lexeme} {l : Lexer} {m' : Memos} {es : List Event} :
    Trace compile (.level 0 ⟨Lexer.ofString text, .start⟩) m es (.ok p, m') →
    p.lexer.next = .ok (x, l) → x.token = .eof →
    ExpressionTrace compile text m (es ++ [.used (.next p.lexer), .finished p.stack])
      (p.stack.finish, m')
  | trailing {p : Parser} {x : Lexeme} {l : Lexer} {m' : Memos} {es : List Event} :
    Trace compile (.level 0 ⟨Lexer.ofString text, .start⟩) m es (.ok p, m') →
    p.lexer.next = .ok (x, l) → x.token ≠ .eof →
    ExpressionTrace compile text m (es ++ [.used (.next p.lexer)])
      (.error (if x.token = .symbol ')' then .unbalancedParentheses
        else .unexpected x .operatorOrEnd), m')
  | unread {p : Parser} {m' : Memos} {es : List Event} {cause : QueryError} :
    Trace compile (.level 0 ⟨Lexer.ofString text, .start⟩) m es (.ok p, m') →
    p.lexer.next = .error cause →
    ExpressionTrace compile text m (es ++ [.used (.next p.lexer)]) (.error cause, m')
  | failed {m' : Memos} {es : List Event} {cause : QueryError} :
    Trace compile (.level 0 ⟨Lexer.ofString text, .start⟩) m es (.error cause, m') →
    ExpressionTrace compile text m es (.error cause, m')

namespace ExpressionTrace

variable {compile : Comparison → Compilation Filter} {text : String} {m : Memos}
  {es : List Event} {r : Except QueryError Filter × Memos}

/-- A trace comes to what the expression gives. -/
theorem outcome_eq (h : ExpressionTrace compile text m es r) :
    (parseExpression compile text).outcome m = r := by
  rw [parseExpression_eq]
  cases h with
  | @finished p x l m' es hlevel hn hx =>
    rw [outcome_bind_of_ok hlevel.outcome_level, hn]
    cases p.stack.finish <;> simp [Compilation.ofExcept, hx]
  | @trailing p x l m' es hlevel hn hx =>
    rw [outcome_bind_of_ok hlevel.outcome_level, hn]
    simp only [Compilation.ofExcept, pure_bind]
    obtain ⟨token, position⟩ := x
    split
    · contradiction
    · rename_i htoken
      rw [if_pos htoken]
      rfl
    · rename_i htoken
      rw [if_neg htoken, QueryError.unexpected]
      split
      · contradiction
      · rfl
  | unread hlevel hn =>
    rw [outcome_bind_of_ok hlevel.outcome_level, hn]
    rfl
  | failed hlevel => exact outcome_bind_of_error hlevel.outcome_level

/-- Every expression has a trace, from any memos. -/
theorem exists_trace (compile : Comparison → Compilation Filter) (text : String) (m : Memos) :
    ∃ es, ExpressionTrace compile text m es ((parseExpression compile text).outcome m) := by
  have htrace : ∃ es r, ExpressionTrace compile text m es r := by
    obtain ⟨es, ⟨cause | p, m'⟩, h⟩ :=
      traced_level 0 ⟨Lexer.ofString text, .start⟩ m
    · exact ⟨_, _, .failed h⟩
    · rcases hn : p.lexer.next with cause | ⟨x, l⟩
      · exact ⟨_, _, .unread h hn⟩
      · by_cases hx : x.token = .eof
        · exact ⟨_, _, .finished h hn hx⟩
        · exact ⟨_, _, .trailing h hn hx⟩
  obtain ⟨es, r, h⟩ := htrace
  exact ⟨es, h.outcome_eq ▸ h⟩

/-- What an expression does with the lexer is orderly. -/
theorem orderly (h : ExpressionTrace compile text m es r) :
    Orderly (Lexer.ofString text) (uses es) none := by
  cases h with
  | finished hlevel _ _ | trailing hlevel _ _ | unread hlevel _ =>
    rw [uses_append]
    exact hlevel.orderly.append (Orderly.next _).cut
  | failed hlevel => exact hlevel.orderly.cut

end ExpressionTrace

end CalendarQuery

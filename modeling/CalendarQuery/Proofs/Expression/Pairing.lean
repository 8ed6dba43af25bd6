import CalendarQuery.Proofs.Comparison.Uniform
import CalendarQuery.Proofs.Expression.Judgment

/-!
# Two expressions side by side

Whatever pairing of lexers is lawful, two runs of the parser do the same until they part: they are
at the same stacks, and compile the same comparisons with the same memos.

* `Compilation.Paired`: the judgment for compilations, with its rules.
* `Parser.paired_readTerm`: the factors of a level.
* `paired_parseExpression`: whole expressions.
-/

namespace CalendarQuery

namespace Compilation

variable {P : Pairing} {α β : Type} {R : α → α → Prop} {S : β → β → Prop}

/-- The value with the memos after it, or the failure. -/
def result (c : Compilation α) (m : Memos) : Except QueryError (α × Memos) :=
  match c.outcome m with
  | (.ok a, m') => .ok (a, m')
  | (.error cause, _) => .error cause

theorem result_eq_ok {c : Compilation α} {m m' : Memos} {a : α} :
    c.result m = .ok (a, m') ↔ c.outcome m = (.ok a, m') := by
  unfold result
  rcases c.outcome m with ⟨_ | _, _⟩ <;> simp

theorem result_eq_error {c : Compilation α} {m : Memos} {cause : QueryError} :
    c.result m = .error cause ↔ ∃ m', c.outcome m = (.error cause, m') := by
  unfold result
  rcases c.outcome m with ⟨_ | _, _⟩ <;> simp

theorem result_bind (c : Compilation α) (f : α → Compilation β) (m : Memos) :
    (c >>= f).result m = c.result m >>= fun x => (f x.1).result x.2 := by
  unfold result
  rw [outcome_bind]
  rcases c.outcome m with ⟨_ | _, _⟩ <;> rfl

theorem result_ofExcept (r : Except QueryError α) (m : Memos) :
    (ofExcept r).result m = r >>= fun a => .ok (a, m) := by
  cases r <;> rfl

/-- Two compilations that with the same memos give values that go together and leave the same memos,
until the runs part. -/
def Paired (P : Pairing) (R : α → α → Prop) (c c' : Compilation α) : Prop :=
  ∀ m, P.Along (fun x x' => R x.1 x'.1 ∧ x.2 = x'.2) (c.result m) (c'.result m)

namespace Paired

theorem pure {a a' : α} (h : R a a') : Paired P R (Pure.pure a) (Pure.pure a') :=
  fun _ => .ok ⟨h, rfl⟩

theorem throw {cause : QueryError} (h : P.cause cause) (c : Compilation α) :
    Paired P R (MonadExcept.throw cause) c := fun _ => .failed h

theorem bind {c c' : Compilation α} {f f' : α → Compilation β} (hc : Paired P R c c')
    (hf : ∀ a a', R a a' → (∃ m m', c.outcome m = (.ok a, m')) → Paired P S (f a) (f' a')) :
    Paired P S (c >>= f) (c' >>= f') := by
  intro m
  rw [result_bind, result_bind]
  have hcm := hc m
  have hok {a : α} {m' : Memos} : c.result m = .ok (a, m') → c.outcome m = (.ok a, m') :=
    result_eq_ok.mp
  generalize c.result m = r, c'.result m = r' at hcm hok ⊢
  cases hcm with
  | failed h => exact .failed h
  | broken h => exact .broken h
  | @ok x x' h =>
    obtain ⟨a, m₁⟩ := x
    obtain ⟨a', m₁'⟩ := x'
    obtain ⟨ha, rfl⟩ := h
    exact hf a a' ha ⟨m, m₁, hok rfl⟩ m₁

theorem ofExcept {r r' : Except QueryError α} (h : P.Along R r r') :
    Paired P R (Compilation.ofExcept r) (Compilation.ofExcept r') := by
  intro m
  rw [result_ofExcept, result_ofExcept]
  exact h.bind fun a a' ha => .ok ⟨ha, rfl⟩

/-- A compilation beside itself. -/
theorem refl {c : Compilation α} (h : ∀ m cause, c.result m = .error cause → P.cause cause) :
    Paired P Eq c c := by
  intro m
  cases hm : c.result m with
  | ok x => exact .ok ⟨rfl, rfl⟩
  | error cause => exact .failed (h m cause hm)

end Paired

end Compilation

namespace Stacks

/-- Failures of the stacks tell of no token. -/
theorem not_tellsOfToken_foldPending {s : Stacks} {cause : QueryError}
    (h : s.foldPending = .error cause) : cause.tellsOfToken = false := by
  unfold foldPending at h
  split at h
  · split at h
    · cases h
    · cases h; rfl
  · cases h

theorem not_tellsOfToken_closeLevel {s : Stacks} {cause : QueryError}
    (h : s.closeLevel = .error cause) : cause.tellsOfToken = false := by
  unfold closeLevel at h
  split at h
  · cases h
  · cases h; rfl

theorem not_tellsOfToken_chooseAt {op : LogicalOp} {es : List StackEntry} {cause : QueryError}
    (h : chooseAt op es = .error cause) : cause.tellsOfToken = false := by
  fun_induction chooseAt op es with
  | case1 => cases h; rfl
  | case2 => cases h
  | case3 _ _ _ he ih =>
    cases h
    exact ih he
  | case4 => cases h
  | case5 => cases h
  | case6 => cases h; rfl

theorem not_tellsOfToken_choose {s : Stacks} {op : LogicalOp} {cause : QueryError}
    (h : s.choose op = .error cause) : cause.tellsOfToken = false := by
  unfold choose at h
  split at h
  · cases h
  · rename_i he
    cases h
    exact not_tellsOfToken_chooseAt he

theorem not_tellsOfToken_finish {s : Stacks} {cause : QueryError} (h : s.finish = .error cause) :
    cause.tellsOfToken = false := by
  unfold finish at h
  split at h
  · cases h
  · cases h; rfl

end Stacks

/-- A comparison that is read is admissible, whatever it was read from. -/
theorem Comparison.admissible_of_read {x : Lexeme} {l l' : Lexer} {c : Comparison}
    (h : read x l = .ok (c, l')) : c.Admissible fun _ => True := by
  have hobeys : Reader.Obeys _ (Admissible _) (read x) :=
    obeys_read Reading.lawful_true trivial
  have hread := (hobeys l trivial).1 c l' h
  exact hread.1.mono fun _ _ => trivial

namespace Parser

open Compilation

variable {P : Pairing} {α β : Type} {S : β → β → Prop} {compile : Comparison → Compilation Filter}

/-- Two parsers at the same stacks whose lexers go together. -/
def Together (P : Pairing) (p p' : Parser) : Prop := P.lexer p.lexer p'.lexer ∧ p.stack = p'.stack

/-- The stacks do the same in both runs. -/
theorem paired_stacks (hP : P.Lawful) {r : Except QueryError α}
    (h : ∀ cause, r = .error cause → cause.tellsOfToken = false) :
    Paired P Eq (Compilation.ofExcept r) (Compilation.ofExcept r) := by
  cases r with
  | ok a => exact Paired.pure rfl
  | error cause => exact Paired.throw (hP.other (h cause rfl)) _

theorem paired_stacks_bind (hP : P.Lawful) {r : Except QueryError α} {f f' : α → Compilation β}
    (h : ∀ cause, r = .error cause → cause.tellsOfToken = false)
    (hf : ∀ a, Paired P S (f a) (f' a)) :
    Paired P S (Compilation.ofExcept r >>= f) (Compilation.ofExcept r >>= f') :=
  (paired_stacks hP h).bind fun a _ ha _ => ha ▸ hf a

/-- The next lexeme, with compilations behind it that are paired for lexemes of one token. -/
theorem paired_next_bind (hP : P.Lawful) {l l' : Lexer} (hl : P.lexer l l')
    {f f' : Lexeme × Lexer → Compilation β}
    (hf : ∀ t p p' l₁ l₁', l.next = .ok (⟨t, p⟩, l₁) → l'.next = .ok (⟨t, p'⟩, l₁') →
      P.lexeme ⟨t, p⟩ ⟨t, p'⟩ → P.lexer l₁ l₁' → Paired P S (f (⟨t, p⟩, l₁)) (f' (⟨t, p'⟩, l₁'))) :
    Paired P S (Compilation.ofExcept l.next >>= f) (Compilation.ofExcept l'.next >>= f') := by
  have hnext := hP.next hl
  generalize hn : l.next = r, hn' : l'.next = r' at hnext ⊢
  cases hnext with
  | failed h => exact fun _ => .failed h
  | broken h => exact fun _ => .broken h
  | @ok x x' h =>
    obtain ⟨⟨t, p⟩, l₁⟩ := x
    obtain ⟨⟨u, p'⟩, l₁'⟩ := x'
    obtain ⟨hx, hl₁⟩ := h
    obtain rfl : t = u := hP.token hx
    exact hf t p p' l₁ l₁' hn hn' hx hl₁

theorem readClose_eq (q : Parser) : readClose q = (do
    let (closing, l) ← Compilation.ofExcept q.lexer.next
    if closing.token = .symbol ')' then do
      let stack ← Compilation.ofExcept q.stack.closeLevel
      let stack ← Compilation.ofExcept stack.foldPending
      return ⟨l, stack⟩
    else throw (if closing.token = .eof then .unbalancedParentheses
      else .unexpected closing .operatorOrClosing)) := by
  rcases hn : q.lexer.next with cause | ⟨x, l⟩
  · rw [readClose_of_error hn]
    rfl
  · by_cases hx : x.token = .symbol ')'
    · rw [readClose_symbol hn hx]
      simp [Compilation.ofExcept, hx]
    · rw [readClose_other hn hx]
      simp [Compilation.ofExcept, hx]

theorem paired_readClose (hP : P.Lawful) {q q' : Parser} (hq : Together P q q') :
    Paired P (Together P) (readClose q) (readClose q') := by
  obtain ⟨hl, hstack⟩ := hq
  rw [readClose_eq, readClose_eq]
  refine paired_next_bind hP hl fun t p p' l l' _ _ hx hl' => ?_
  by_cases ht : t = .symbol ')'
  · simp only [ht, if_true, ← hstack]
    refine paired_stacks_bind hP (fun _ => Stacks.not_tellsOfToken_closeLevel) fun s => ?_
    refine paired_stacks_bind hP (fun _ => Stacks.not_tellsOfToken_foldPending) fun s => ?_
    exact Paired.pure ⟨hl', rfl⟩
  · simp only [ht, if_false]
    refine Paired.throw ?_ _
    split
    · exact hP.placeless rfl
    · exact hP.unexpected _ hx

variable (hP : P.Lawful)
  (hcompile : ∀ c : Comparison, c.Admissible (fun _ => True) → Paired P Eq (compile c) (compile c))

include hP hcompile

/-- One factor, given the levels of what is left behind its first token. -/
theorem paired_readFactor {p p' : Parser} (hp : Together P p p')
    (ih : ∀ q q' : Parser, q.lexer.size < p.lexer.size → Together P q q' → ∀ n,
      Paired P (Together P) (readTerm compile n q) (readTerm compile n q')) (n : Nat) :
    Paired P (Together P) (readFactor compile n p) (readFactor compile n p') := by
  obtain ⟨hl, hstack⟩ := hp
  rw [readFactor_eq, readFactor_eq]
  refine paired_next_bind hP hl fun t place place' l l' hn _ hx hl' => ?_
  by_cases ht : t = .symbol '('
  · simp only [ht, if_true]
    split
    · exact Paired.throw (hP.placeless rfl) _
    · refine (ih _ _ (Lexer.size_next_lt hn (by simp [ht])) ⟨hl', ?_⟩ _).bind fun q q' hq _ =>
        paired_readClose hP hq
      rw [hstack]
  · simp only [ht, if_false, ← hstack]
    refine (Paired.ofExcept (Comparison.paired_read hP hx l l' hl')).bind fun r r' hr hread => ?_
    obtain ⟨c, l₁⟩ := r
    obtain ⟨c', l₁'⟩ := r'
    obtain ⟨rfl, hl₁⟩ := hr
    obtain ⟨m, m', hread⟩ := hread
    have hc := Comparison.admissible_of_read (Compilation.ofExcept_eq_ok.mp hread).1
    refine (hcompile c hc).bind fun f f' hf _ => ?_
    obtain rfl := hf
    refine paired_stacks_bind hP (fun _ => Stacks.not_tellsOfToken_foldPending) fun s => ?_
    exact Paired.pure ⟨hl₁, rfl⟩

/-- The factors of a level; the induction is on what is left to the first run, which a factor
shortens. -/
theorem paired_readTerm {p p' : Parser} (hp : Together P p p') (n : Nat) :
    Paired P (Together P) (readTerm compile n p) (readTerm compile n p') := by
  induction hsize : p.lexer.size using Nat.strongRecOn generalizing p p' n with
  | ind size ih =>
    subst hsize
    have ih' : ∀ q q' : Parser, q.lexer.size < p.lexer.size → Together P q q' → ∀ n,
        Paired P (Together P) (readTerm compile n q) (readTerm compile n q') :=
      fun q q' hlt hq n => ih _ hlt hq n rfl
    rw [readTerm_eq, readTerm_eq]
    refine (paired_readFactor hP hcompile hp ih' n).bind fun q q' hq hfactor => ?_
    obtain ⟨m, m', hfactor⟩ := hfactor
    obtain ⟨hl, hstack⟩ := hq
    simp only [resume]
    refine paired_next_bind hP hl fun t place place' l l' hn hn' hx hl' => ?_
    simp only [← hstack]
    split
    · refine paired_stacks_bind hP (fun _ => Stacks.not_tellsOfToken_choose) fun s => ?_
      refine ih' _ _ ?_ ?_ n
      · exact Nat.lt_of_le_of_lt (Lexer.size_next_le hn) (size_readFactor compile hfactor)
      · exact ⟨hl', rfl⟩
    · refine paired_stacks_bind hP (fun _ => Stacks.not_tellsOfToken_foldPending) fun s => ?_
      exact Paired.pure ⟨hP.pushBack hl hn hn', rfl⟩

end Parser

/-- Two whole expressions. -/
theorem paired_parseExpression {P : Pairing} (hP : P.Lawful)
    {compile : Comparison → Compilation Filter}
    (hcompile : ∀ c : Comparison, c.Admissible (fun _ => True) →
      Compilation.Paired P Eq (compile c) (compile c)) {text text' : String}
    (htext : P.lexer (Lexer.ofString text) (Lexer.ofString text')) :
    Compilation.Paired P Eq (parseExpression compile text) (parseExpression compile text') := by
  rw [parseExpression_eq, parseExpression_eq]
  have hstart : Parser.Together P ⟨Lexer.ofString text, .start⟩ ⟨Lexer.ofString text', .start⟩ :=
    ⟨htext, rfl⟩
  refine (Parser.paired_readTerm hP hcompile hstart 0).bind fun q q' hq _ => ?_
  obtain ⟨hl, hstack⟩ := hq
  refine Parser.paired_next_bind hP hl fun t place place' l l' _ _ hx _ => ?_
  simp only [← hstack]
  split
  · exact Parser.paired_stacks hP fun _ => Stacks.not_tellsOfToken_finish
  · exact Compilation.Paired.throw (hP.placeless rfl) _
  · rename_i heof _
    have hcause := hP.unexpected .operatorOrEnd hx
    unfold QueryError.unexpected at hcause
    split at hcause
    · contradiction
    · exact Compilation.Paired.throw hcause _

end CalendarQuery

import CalendarQuery.Proofs.Compilation
import CalendarQuery.Proofs.Expression.Grammar

/-!
# The parser follows the grammar

The parser works on two stacks that all levels share; the grammar has none. What ties them together
is the shape of the stacks inside a level (`Stacks.inside`): above the entries of the levels around
it lies its marker, and above that at most one operator that waits for its right operand.

* `readTerm_eq`, `readFactor_eq`: the parser without the proofs that it ends.
* `sound`: what is read is spelled by a syntax tree, and the stacks grow by the filter of that tree.
* `run_level`: a syntax tree that is spelled is read, up to the token behind it.
* `readTerm_opened_error`: a failure inside open parentheses is the failure of the whole.
-/

namespace CalendarQuery

namespace Stacks

/-- The stacks inside a level, where nothing or a filter and an operator have been met, over the
entries and filters of the levels around it. -/
def inside : Option (Filter × LogicalOp) → List StackEntry → List Filter → Stacks
  | none, es, fs => ⟨.level none :: es, fs⟩
  | some (left, op), es, fs => ⟨.pending op :: .level (some op) :: es, left :: fs⟩

/-- A further filter of a level, combined with what has been met before it. -/
def joined : Option (Filter × LogicalOp) → Filter → Filter
  | none, f => f
  | some (left, op), f => Filter.fold left f op

/-- A level that is opened starts inside itself, over all that the stacks have. -/
theorem openLevel_inside (w : Option (Filter × LogicalOp)) (es : List StackEntry)
    (fs : List Filter) : (inside w es fs).openLevel =
      inside none (inside w es fs).entries (inside w es fs).filters := rfl

theorem foldPending_push_inside (w : Option (Filter × LogicalOp)) (es : List StackEntry)
    (fs : List Filter) (f : Filter) :
    ((inside w es fs).push f).foldPending =
      .ok ⟨.level (w.map Prod.snd) :: es, joined w f :: fs⟩ := by
  rcases w with _ | ⟨left, op⟩ <;> rfl

theorem choose_level {chosen : Option LogicalOp} {op : LogicalOp} (es : List StackEntry)
    (fs : List Filter) (h : chosen = none ∨ chosen = some op) :
    choose ⟨.level chosen :: es, fs⟩ op = .ok ⟨.level (some op) :: es, fs⟩ := by
  rcases h with rfl | rfl <;> simp [choose, chooseAt]

theorem choose_level_ne {chosen : Option LogicalOp} {op : LogicalOp} (es : List StackEntry)
    (fs : List Filter) (h : ¬(chosen = none ∨ chosen = some op)) :
    choose ⟨.level chosen :: es, fs⟩ op = .error .mixedOperators := by
  obtain ⟨hn, ho⟩ := not_or.mp h
  obtain ⟨other, rfl⟩ := Option.ne_none_iff_exists'.mp hn
  have hne : other ≠ op := fun e => ho (by rw [e])
  simp [choose, chooseAt, hne]

end Stacks

namespace Parser

open Compilation Stacks Grammar

variable (compile : Comparison → Compilation Filter)

/-! ## The parser without its measure -/

/-- The factors of one level. -/
def readTerm (nesting : Nat) (p : Parser) : Compilation Parser :=
  Subtype.val <$> term compile nesting p

/-- One factor. -/
def readFactor (nesting : Nat) (p : Parser) : Compilation Parser :=
  Subtype.val <$> factor compile nesting p

/-- A closing parenthesis. -/
def readClose (p : Parser) : Compilation Parser := Subtype.val <$> close p

/-- What follows a factor in its level. -/
def resume (nesting : Nat) (q : Parser) : Compilation Parser := do
  let (lexeme, l) ← Compilation.ofExcept q.lexer.next
  match lexeme.token.logicalOp? with
  | some op =>
    let stack ← Compilation.ofExcept (q.stack.choose op)
    readTerm compile nesting ⟨l, stack.pend op⟩
  | none =>
    let stack ← Compilation.ofExcept q.stack.foldPending
    return ⟨l.pushBack lexeme, stack⟩

theorem readTerm_eq (n : Nat) (p : Parser) :
    readTerm compile n p = readFactor compile n p >>= resume compile n := by
  unfold readTerm
  rw [term]
  simp only [map_bind, readFactor, bind_map_left]
  congr 1
  funext a
  obtain ⟨q, hq⟩ := a
  simp only [resume]
  split
  · rename_i hn
    rw [hn]
    rfl
  · rename_i x l hn
    simp only [hn]
    split
    · rename_i op hop
      simp [Compilation.ofExcept, hop, readTerm]
    · rename_i hop
      simp [Compilation.ofExcept, hop]

theorem readFactor_eq (n : Nat) (p : Parser) :
    readFactor compile n p = (do
      let (first, l) ← Compilation.ofExcept p.lexer.next
      if first.token = .symbol '(' then
        if maxNesting ≤ n then throw (.nestingTooDeep maxNesting)
        else readTerm compile (n + 1) ⟨l, p.stack.openLevel⟩ >>= readClose
      else do
        let (c, l') ← Compilation.ofExcept (Comparison.read first l)
        let f ← compile c
        let stack ← Compilation.ofExcept (p.stack.push f).foldPending
        return ⟨l', stack⟩) := by
  unfold readFactor
  rw [factor]
  split
  · rename_i hn
    rw [hn]
    rfl
  · rename_i x l hn
    simp only [hn]
    by_cases hp : x.token = .symbol '('
    · by_cases h : maxNesting ≤ n
      · simp [hp, h, Compilation.ofExcept]
      · simp [hp, h, Compilation.ofExcept, readTerm, readClose]
    · simp only [hp, dite_false, if_false, Compilation.ofExcept, pure_bind, comparison]
      split
      · rename_i hr
        rw [hr]
        rfl
      · rename_i hr
        simp [hr]

theorem size_readFactor {n : Nat} {p q : Parser} {m m' : Memos}
    (h : (readFactor compile n p).outcome m = (.ok q, m')) : q.lexer.size < p.lexer.size := by
  obtain ⟨a, -, rfl⟩ := map_eq_ok.mp h
  exact a.2

/-- A comparison that is read where a factor is due. -/
theorem readFactor_comparison {n : Nat} {p : Parser} {x : Lexeme} {l l' : Lexer} {c : Comparison}
    (hn : p.lexer.next = .ok (x, l)) (hr : Comparison.read x l = .ok (c, l')) :
    readFactor compile n p = (do
      let f ← compile c
      let stack ← Compilation.ofExcept (p.stack.push f).foldPending
      return ⟨l', stack⟩) := by
  have hx : x.token ≠ .symbol '(' := by
    intro hx
    obtain ⟨path, l₁, h₁, -⟩ := Reader.bind_eq_ok.mp hr
    simp [PropertyPath.read, hx, Reader.fail] at h₁
  rw [readFactor_eq, hn]
  simp [Compilation.ofExcept, hx, hr]

theorem readFactor_group {n : Nat} {p : Parser} {x : Lexeme} {l : Lexer} (hlt : n < maxNesting)
    (hn : p.lexer.next = .ok (x, l)) (hx : x.token = .symbol '(') :
    readFactor compile n p = readTerm compile (n + 1) ⟨l, p.stack.openLevel⟩ >>= readClose := by
  rw [readFactor_eq, hn]
  simp [Compilation.ofExcept, hx, Nat.not_le.mpr hlt]

/-- What follows a factor, when the level has the filter `f` and no operator waits. -/
theorem outcome_resume {n : Nat} {q : Parser} {x : Lexeme} {l : Lexer}
    {chosen : Option LogicalOp} {es : List StackEntry} {f : Filter} {fs : List Filter} (m : Memos)
    (hn : q.lexer.next = .ok (x, l)) (hst : q.stack = ⟨.level chosen :: es, f :: fs⟩) :
    (resume compile n q).outcome m = match x.token.logicalOp? with
      | none => (.ok ⟨l.pushBack x, q.stack⟩, m)
      | some op =>
        if chosen = none ∨ chosen = some op then
          (readTerm compile n ⟨l, inside (some (f, op)) es fs⟩).outcome m
        else (.error .mixedOperators, m) := by
  unfold resume
  rw [hn, hst]
  cases hop : x.token.logicalOp? with
  | none => simp [Compilation.ofExcept, hop, foldPending]
  | some op =>
    by_cases hc : chosen = none ∨ chosen = some op
    · simp [Compilation.ofExcept, hop, choose_level es (f :: fs) hc, hc, pend, inside]
    · simp only [Compilation.ofExcept, pure_bind, hop, choose_level_ne es (f :: fs) hc, if_neg hc]
      rfl

theorem readClose_symbol {q : Parser} {x : Lexeme} {l : Lexer} (hn : q.lexer.next = .ok (x, l))
    (hx : x.token = .symbol ')') :
    readClose q = (do
      let stack ← Compilation.ofExcept q.stack.closeLevel
      let stack ← Compilation.ofExcept stack.foldPending
      return ⟨l, stack⟩) := by
  unfold readClose close
  split
  · rename_i hn'; rw [hn] at hn'; cases hn'
  · rename_i hn'
    rw [hn] at hn'
    cases hn'
    split
    · simp
    · rename_i ht; rw [hx] at ht; cases ht
    · rename_i ht _; exact absurd hx ht

/-- Only a closing parenthesis closes a level. -/
theorem token_of_readClose {q r : Parser} {m m' : Memos}
    (h : (readClose q).outcome m = (.ok r, m')) :
    ∃ x l, q.lexer.next = .ok (x, l) ∧ x.token = .symbol ')' := by
  unfold readClose close at h
  split at h
  · cases h
  · rename_i x l hn
    split at h
    · rename_i ht; exact ⟨x, l, hn, ht⟩
    · cases h
    · cases h

/-- A success after a level: its closing parenthesis has been taken. -/
theorem readClose_eq_ok {q r : Parser} {m m' : Memos} {s : TokenStream} (hq : q.lexer.Gives s)
    (h : (readClose q).outcome m = (.ok r, m')) :
    ∃ s' stack, s = s'.cons (.symbol ')') ∧ r.lexer.Gives s' ∧ q.stack.closeLevel = .ok stack ∧
      stack.foldPending = .ok r.stack ∧ m' = m := by
  obtain ⟨x, l, hn, ht⟩ := token_of_readClose h
  obtain ⟨-, hx, hl⟩ := hq.of_next hn
  rw [readClose_symbol hn ht] at h
  obtain ⟨stack, m₁, h₁, h⟩ := bind_eq_ok.mp h
  obtain ⟨stack', m₂, h₂, h₃⟩ := bind_eq_ok.mp h
  obtain ⟨hc, rfl⟩ := ofExcept_eq_ok.mp h₁
  obtain ⟨hf, rfl⟩ := ofExcept_eq_ok.mp h₂
  obtain ⟨rfl, rfl⟩ := Compilation.pure_eq_ok.mp h₃
  exact ⟨s.tail, stack, TokenStream.eq_cons_of_head (hx.symm.trans ht) (by simp), hl, hc, hf, rfl⟩

theorem readClose_of_gives {q : Parser} {s : TokenStream} {stack stack' : Stacks} (m : Memos)
    (hq : q.lexer.Gives (s.cons (.symbol ')'))) (hc : q.stack.closeLevel = .ok stack)
    (hf : stack.foldPending = .ok stack') :
    ∃ l, (readClose q).outcome m = (.ok ⟨l, stack'⟩, m) ∧ l.Gives s := by
  obtain ⟨x, l, hn, hx, hl⟩ := hq.next (TokenStream.readable_cons _ _)
  rw [TokenStream.head_cons] at hx
  refine ⟨l, ?_, hl⟩
  rw [readClose_symbol hn hx]
  simp [Compilation.ofExcept, hc, hf]

/-! ## What is read is spelled by a tree -/

/-- A factor that is read is a syntax tree, whose filter is added to the stacks. -/
def FactorSound (p : Parser) : Prop :=
  ∀ ⦃n : Nat⦄ ⦃s : TokenStream⦄ ⦃m m' : Memos⦄ ⦃q : Parser⦄, n ≤ maxNesting → p.lexer.Gives s →
    (readFactor compile n p).outcome m = (.ok q, m') →
    ∃ (t : Factor) (f : Filter) (s' : TokenStream), t.Spells s s' ∧ n + t.nesting ≤ maxNesting ∧
      (t.denote compile).outcome m = (.ok f, m') ∧ q.lexer.Gives s' ∧
      (p.stack.push f).foldPending = .ok q.stack

/-- The factors that are read in a level are a syntax tree, whose filter is combined with what the
level has before them. -/
def TermSound (p : Parser) : Prop :=
  ∀ ⦃n : Nat⦄ ⦃s : TokenStream⦄ ⦃m m' : Memos⦄ ⦃q : Parser⦄ ⦃w : Option (Filter × LogicalOp)⦄
    ⦃es : List StackEntry⦄ ⦃fs : List Filter⦄, n ≤ maxNesting → p.lexer.Gives s →
    p.stack = inside w es fs → (readTerm compile n p).outcome m = (.ok q, m') →
    ∃ (first : Factor) (op : LogicalOp) (others : List Factor) (f : Filter) (gs : List Filter)
      (m₁ : Memos) (s' : TokenStream) (chosen : Option LogicalOp),
      (Level.mk first op others).Spells s s' ∧
      n + (Level.mk first op others).nesting ≤ maxNesting ∧
      (first.denote compile).outcome m = (.ok f, m₁) ∧
      (denoteEach compile others).outcome m₁ = (.ok gs, m') ∧
      (∀ x ∈ w, x.2 = op) ∧ q.lexer.Gives s' ∧
      q.stack = ⟨.level chosen :: es, folded op (joined w f) gs :: fs⟩

variable {compile}

theorem factorSound_of {p : Parser}
    (ih : ∀ p' : Parser, p'.lexer.size < p.lexer.size → TermSound compile p') :
    FactorSound compile p := by
  intro n s m m' q hle hp h
  obtain ⟨r, hr⟩ : ∃ r, p.lexer.next = r := ⟨_, rfl⟩
  rcases r with cause | ⟨x, l⟩
  · rw [readFactor_eq, hr] at h; cases h
  obtain ⟨-, hx, hl⟩ := hp.of_next hr
  by_cases hpar : x.token = .symbol '('
  · have hs : s = s.tail.cons (.symbol '(') :=
      TokenStream.eq_cons_of_head (hx.symm.trans hpar) (by simp)
    have hsize := Lexer.size_next_lt hr (by simp [hpar])
    by_cases hlt : n < maxNesting
    · rw [readFactor_group compile hlt hr hpar] at h
      obtain ⟨q₁, m₁, h₁, h₂⟩ := bind_eq_ok.mp h
      obtain ⟨first, op, others, f, gs, m₂, s₁, chosen, hsp, hn, hd, hds, -, hq₁, hst⟩ :=
        ih ⟨l, p.stack.openLevel⟩ hsize (w := none) hlt hl rfl h₁
      obtain ⟨s', stack, rfl, hq, hc, hf, rfl⟩ := readClose_eq_ok hq₁ h₂
      rw [hst] at hc
      cases hc
      refine ⟨.group (.mk first op others), folded op f gs, s', ⟨s.tail, hs, hsp⟩, ?_, ?_, hq, hf⟩
      · simp only [Factor.nesting]; omega
      · simp only [Factor.denote, Level.denote]
        rw [outcome_bind_of_ok hd, outcome_bind_of_ok hds]
        rfl
    · rw [readFactor_eq, hr] at h
      simp [Compilation.ofExcept, hpar, Nat.le_of_not_lt hlt] at h
  · obtain ⟨r', hr'⟩ : ∃ r', Comparison.read x l = r' := ⟨_, rfl⟩
    rcases r' with cause | ⟨c, l'⟩
    · rw [readFactor_eq, hr] at h
      simp [Compilation.ofExcept, hpar, hr'] at h
    rw [readFactor_comparison compile hr hr'] at h
    obtain ⟨f, m₁, h₁, h⟩ := bind_eq_ok.mp h
    obtain ⟨stack, m₂, h₂, h₃⟩ := bind_eq_ok.mp h
    obtain ⟨hf, rfl⟩ := ofExcept_eq_ok.mp h₂
    obtain ⟨rfl, rfl⟩ := Compilation.pure_eq_ok.mp h₃
    have hread : Comparison.readNext p.lexer = .ok (c, l') :=
      Reader.bind_eq_ok.mpr ⟨x, l, hr, hr'⟩
    obtain ⟨s', l₁, hl₁, hl', -⟩ := Comparison.alike_readNext s p.lexer p.lexer l' c hp hp hread
    exact ⟨.comparison c, f, s', ⟨p.lexer, l', hp, hread, hl'⟩, by simpa [Factor.nesting] using hle,
      h₁, hl', hf⟩

theorem termSound_of {p : Parser} (hfactor : FactorSound compile p)
    (ih : ∀ p' : Parser, p'.lexer.size < p.lexer.size → TermSound compile p') :
    TermSound compile p := by
  intro n s m m' q w es fs hle hp hst h
  rw [readTerm_eq] at h
  obtain ⟨q₁, m₁, h₁, h₂⟩ := bind_eq_ok.mp h
  obtain ⟨t, f, s₁, hsp, hn, hd, hq₁, hst₁⟩ := hfactor hle hp h₁
  rw [hst, foldPending_push_inside] at hst₁
  have hst₁ := (Except.ok.inj hst₁).symm
  obtain ⟨r, hr⟩ : ∃ r, q₁.lexer.next = r := ⟨_, rfl⟩
  rcases r with cause | ⟨x, l⟩
  · unfold resume at h₂; rw [hr] at h₂; cases h₂
  obtain ⟨-, hx, hl⟩ := hq₁.of_next hr
  rw [outcome_resume compile m₁ hr hst₁] at h₂
  cases hop : x.token.logicalOp? with
  | none =>
    rw [hop] at h₂
    obtain ⟨hq, rfl⟩ := Prod.mk.inj h₂
    obtain rfl := Except.ok.inj hq
    refine ⟨t, (w.map Prod.snd).getD .and, [], f, [], m₁, s₁, w.map Prod.snd, ⟨s₁, hsp, rfl⟩, ?_,
      hd, rfl, ?_, hq₁.pushBack hr, hst₁⟩
    · simp only [Level.nesting, nestingEach]; omega
    · intro y hy
      obtain rfl := hy
      rfl
  | some op =>
    rw [hop] at h₂
    by_cases hc : w.map Prod.snd = none ∨ w.map Prod.snd = some op
    · simp only [if_pos hc] at h₂
      have hsize : l.size < p.lexer.size :=
        Nat.lt_of_le_of_lt (Lexer.size_next_le hr) (size_readFactor compile h₁)
      obtain ⟨first, op', others, g, gs, m₂, s', chosen, ⟨s₂, hsp₂, hsp'⟩, hn', hd', hds, hw, hq,
          hst'⟩ :=
        ih ⟨l, inside (some (joined w f, op)) es fs⟩ hsize (w := some (joined w f, op)) hle hl rfl
          h₂
      obtain rfl : op = op' := hw _ rfl
      have hs₁ : s₁ = s₁.tail.cons x.token :=
        TokenStream.eq_cons_of_head hx.symm (by intro he; rw [he] at hop; cases hop)
      refine ⟨t, op, first :: others, f, g :: gs, m₁, s', chosen,
        ⟨s₁, hsp, x.token, s₁.tail, s₂, hs₁, hop, hsp₂, hsp'⟩, ?_, hd, ?_, ?_, hq, hst'⟩
      · simp only [Level.nesting, nestingEach] at hn' ⊢; omega
      · simp only [denoteEach]
        rw [outcome_bind_of_ok hd', outcome_bind_of_ok hds]
        rfl
      · intro y hy
        obtain rfl := hy
        simpa using hc
    · simp only [if_neg hc] at h₂
      cases h₂

theorem sound (p : Parser) : FactorSound compile p ∧ TermSound compile p := by
  induction hn : p.lexer.size using Nat.strongRecOn generalizing p with
  | ind n ih =>
    subst hn
    have ih' : ∀ p' : Parser, p'.lexer.size < p.lexer.size → TermSound compile p' :=
      fun p' hlt => (ih _ hlt p' rfl).2
    have hf := factorSound_of ih'
    exact ⟨hf, termSound_of hf ih'⟩

/-! ## A tree that is spelled is read -/

variable (compile)

/-- The end of a level: what follows is no logical operator. -/
theorem resume_end (n : Nat) {l : Lexer} {s : TokenStream} (chosen : Option LogicalOp)
    (es : List StackEntry) (f : Filter) (fs : List Filter) (m : Memos) (hl : l.Gives s)
    (hs : s.Readable) (hop : s.head.logicalOp? = none) :
    ∃ l', (resume compile n ⟨l, ⟨.level chosen :: es, f :: fs⟩⟩).outcome m =
      (.ok ⟨l', ⟨.level chosen :: es, f :: fs⟩⟩, m) ∧ l'.Gives s := by
  obtain ⟨x, l₁, hn, hx, -⟩ := hl.next hs
  refine ⟨l₁.pushBack x, ?_, hl.pushBack hn⟩
  rw [outcome_resume compile m hn rfl, hx, hop]

/-- A further operator of a level. -/
theorem resume_operator (n : Nat) {l : Lexer} {s : TokenStream} {t : Token} {op : LogicalOp}
    (chosen : Option LogicalOp) (es : List StackEntry) (f : Filter) (fs : List Filter) (m : Memos)
    (hl : l.Gives (s.cons t)) (hop : t.logicalOp? = some op) :
    ∃ l', l'.Gives s ∧ (resume compile n ⟨l, ⟨.level chosen :: es, f :: fs⟩⟩).outcome m =
      if chosen = none ∨ chosen = some op then
        (readTerm compile n ⟨l', inside (some (f, op)) es fs⟩).outcome m
      else (.error .mixedOperators, m) := by
  obtain ⟨x, l₁, hn, hx, hl₁⟩ := hl.next (TokenStream.readable_cons t s)
  rw [TokenStream.head_cons] at hx
  refine ⟨l₁, hl₁, ?_⟩
  rw [outcome_resume compile m hn rfl, hx, hop]

variable {compile}

mutual

theorem run_factor (t : Factor) {n : Nat} {s s' : TokenStream} {m m' : Memos} {f : Filter}
    (hs : t.Spells s s') (hn : n + t.nesting ≤ maxNesting)
    (hd : (t.denote compile).outcome m = (.ok f, m')) {l : Lexer} {before after : Stacks}
    (hl : l.Gives s) (hst : (before.push f).foldPending = .ok after) :
    ∃ l', (readFactor compile n ⟨l, before⟩).outcome m = (.ok ⟨l', after⟩, m') ∧ l'.Gives s' := by
  cases t with
  | comparison c =>
    obtain ⟨l', hread, hl'⟩ := Reader.Accepts.reads hs Comparison.alike_readNext l hl
    obtain ⟨x, l₁, hx, hr⟩ := Reader.bind_eq_ok.mp hread
    have hc : (compile c).outcome m = (.ok f, m') := hd
    refine ⟨l', ?_, hl'⟩
    rw [readFactor_comparison (p := ⟨l, before⟩) compile hx hr, outcome_bind_of_ok hc, hst]
    rfl
  | group level =>
    obtain ⟨s₁, rfl, hsp⟩ := hs
    obtain ⟨x, l₁, hx, hpar, hl₁⟩ := hl.next (TokenStream.readable_cons _ _)
    simp only [Factor.nesting] at hn
    obtain ⟨l₂, chosen, hl₂, -, -, hrun⟩ :=
      run_level level (n + 1) hsp (by omega) hd hl₁ before.entries before.filters
    obtain ⟨l₃, hend, hl₃⟩ := resume_end compile (n + 1) chosen before.entries f before.filters m'
      hl₂ (TokenStream.readable_cons _ _) rfl
    obtain ⟨l₄, hread, hl₄⟩ :=
      readClose_of_gives (q := ⟨l₃, .level chosen :: before.entries, f :: before.filters⟩) m' hl₃
        rfl hst
    refine ⟨l₄, ?_, hl₄⟩
    rw [readFactor_group (p := ⟨l, before⟩) compile (by omega) hx hpar]
    exact (outcome_bind_of_ok (hrun.trans hend)).trans hread

theorem run_level (level : Level) (n : Nat) {s s' : TokenStream} {m m' : Memos} {f : Filter}
    (hs : level.Spells s s') (hn : n + level.nesting ≤ maxNesting)
    (hd : (level.denote compile).outcome m = (.ok f, m')) {l : Lexer} (hl : l.Gives s)
    (es : List StackEntry) (fs : List Filter) :
    ∃ l' chosen, l'.Gives s' ∧ (chosen = none ∨ chosen = some level.op) ∧
      (level.others ≠ [] → chosen = some level.op) ∧
      (readTerm compile n ⟨l, inside none es fs⟩).outcome m =
        (resume compile n ⟨l', ⟨.level chosen :: es, f :: fs⟩⟩).outcome m' := by
  obtain ⟨first, op, others⟩ := level
  obtain ⟨s₁, hsp, hsp'⟩ := hs
  simp only [Level.nesting] at hn
  obtain ⟨g, m₁, hd₁, hd'⟩ := bind_eq_ok.mp hd
  obtain ⟨gs, m₂, hd₂, hd₃⟩ := bind_eq_ok.mp hd'
  obtain ⟨rfl, rfl⟩ := Compilation.pure_eq_ok.mp hd₃
  have hfirst : n + first.nesting ≤ maxNesting := by omega
  have hothers : n + nestingEach others ≤ maxNesting := by omega
  obtain ⟨l₁, hrun, hl₁⟩ :=
    run_factor first hsp hfirst hd₁ hl (foldPending_push_inside none es fs g)
  obtain ⟨l₂, chosen, hl₂, hc, hne, -, hrun'⟩ :=
    run_further others n g hsp' hothers hd₂ hl₁ none es fs (.inl rfl)
  refine ⟨l₂, chosen, hl₂, hc, hne, ?_⟩
  rw [readTerm_eq, outcome_bind_of_ok hrun]
  exact hrun'

theorem run_further (ts : List Factor) (n : Nat) (f : Filter) {s s' : TokenStream}
    {m m' : Memos} {gs : List Filter} {op : LogicalOp} (hs : SpellFurther op ts s s')
    (hn : n + nestingEach ts ≤ maxNesting)
    (hd : (denoteEach compile ts).outcome m = (.ok gs, m')) {l : Lexer} (hl : l.Gives s)
    (chosen : Option LogicalOp) (es : List StackEntry) (fs : List Filter)
    (hc : chosen = none ∨ chosen = some op) :
    ∃ l' chosen', l'.Gives s' ∧ (chosen' = none ∨ chosen' = some op) ∧
      (ts ≠ [] → chosen' = some op) ∧ (chosen = some op → chosen' = some op) ∧
      (resume compile n ⟨l, ⟨.level chosen :: es, f :: fs⟩⟩).outcome m =
        (resume compile n ⟨l', ⟨.level chosen' :: es, folded op f gs :: fs⟩⟩).outcome m' := by
  cases ts with
  | nil =>
    obtain rfl : s = s' := hs
    obtain ⟨rfl, rfl⟩ := Compilation.pure_eq_ok.mp hd
    exact ⟨l, chosen, hl, hc, by simp, id, rfl⟩
  | cons t ts =>
    obtain ⟨u, s₁, s₂, rfl, hop, hsp, hsp'⟩ := hs
    simp only [nestingEach] at hn
    obtain ⟨g, m₁, hd₁, hd'⟩ := bind_eq_ok.mp hd
    obtain ⟨gs', m₂, hd₂, hd₃⟩ := bind_eq_ok.mp hd'
    obtain ⟨rfl, rfl⟩ := Compilation.pure_eq_ok.mp hd₃
    have hfirst : n + t.nesting ≤ maxNesting := by omega
    have hothers : n + nestingEach ts ≤ maxNesting := by omega
    obtain ⟨l₁, hl₁, hres⟩ := resume_operator compile n chosen es f fs m hl hop
    obtain ⟨l₂, hrun, hl₂⟩ :=
      run_factor t hsp hfirst hd₁ hl₁ (foldPending_push_inside (some (f, op)) es fs g)
    obtain ⟨l₃, chosen', hl₃, -, -, hkeep, hrun'⟩ :=
      run_further ts n (Filter.fold f g op) hsp' hothers hd₂ hl₂ (some op) es fs (.inr rfl)
    obtain rfl := hkeep rfl
    refine ⟨l₃, some op, hl₃, .inr rfl, fun _ => rfl, fun _ => rfl, ?_⟩
    rw [hres, if_pos hc, readTerm_eq, outcome_bind_of_ok hrun]
    exact hrun'

end

/-! ## Failures -/

/-- A failure inside parentheses is the failure of the level around them. -/
theorem readTerm_open_error {n : Nat} {p : Parser} {s : TokenStream} {m m' : Memos}
    {cause : QueryError} (hp : p.lexer.Gives (s.cons (.symbol '('))) (hlt : n < maxNesting)
    (h : ∀ l : Lexer, l.Gives s →
      (readTerm compile (n + 1) ⟨l, p.stack.openLevel⟩).outcome m = (.error cause, m')) :
    (readTerm compile n p).outcome m = (.error cause, m') := by
  obtain ⟨x, l, hn, hx, hl⟩ := hp.next (TokenStream.readable_cons _ _)
  rw [readTerm_eq, readFactor_group compile hlt hn hx]
  exact outcome_bind_of_error (outcome_bind_of_error (h l hl))

/-- A failure inside open parentheses, behind levels that were accepted, is the failure of the
whole. -/
theorem readTerm_opened_error (before : Opened) {n : Nat} {s s' : TokenStream} {m m₁ m' : Memos}
    {cause : QueryError} (hs : before.Spells s s') (hf : before.Fits n)
    (ha : (before.accept compile).outcome m = (.ok (), m₁))
    (h : ∀ (l : Lexer) (es : List StackEntry) (fs : List Filter), l.Gives s' →
      (readTerm compile (n + before.length) ⟨l, inside none es fs⟩).outcome m₁ = (.error cause, m'))
    {l : Lexer} (hl : l.Gives s) (es : List StackEntry) (fs : List Filter) :
    (readTerm compile n ⟨l, inside none es fs⟩).outcome m = (.error cause, m') := by
  induction before generalizing n s m l es fs with
  | nil =>
    obtain rfl : s = s' := hs
    obtain ⟨-, rfl⟩ := Compilation.pure_eq_ok.mp ha
    exact h l es fs hl
  | cons level inner ih =>
    have h' : ∀ (l : Lexer) (es : List StackEntry) (fs : List Filter), l.Gives s' →
        (readTerm compile (n + 1 + inner.length) ⟨l, inside none es fs⟩).outcome m₁ =
          (.error cause, m') := by
      simpa [Nat.add_assoc, Nat.add_comm 1] using h
    cases level with
    | none =>
      obtain ⟨s₁, rfl, hin⟩ := hs
      obtain ⟨hlt, -, hfit⟩ := hf
      exact readTerm_open_error hl hlt fun l₁ hl₁ => ih hin hfit ha h' hl₁ _ _
    | some level =>
      obtain ⟨t, s₁, hsp, hop, hin⟩ := hs
      obtain ⟨hlt, hnest, hfit⟩ := hf
      obtain ⟨f, m₂, hd, ha'⟩ := bind_eq_ok.mp ha
      obtain ⟨l₁, chosen, hl₁, hc, -, hrun⟩ :=
        run_level level n hsp (hnest level rfl) hd hl es fs
      obtain ⟨l₂, hl₂, hres⟩ := resume_operator compile n chosen es f fs m₂ hl₁ hop
      rw [hrun, hres, if_pos hc]
      exact readTerm_open_error hl₂ hlt fun l₃ hl₃ => ih hin hfit ha' h' hl₃ _ _

/-- A level goes on with one operator only. -/
theorem readTerm_mixed {level : Level} {n : Nat} {s s' : TokenStream} {t : Token} {op : LogicalOp}
    {m m' : Memos} {f : Filter} (hs : level.Spells s (s'.cons t))
    (hn : n + level.nesting ≤ maxNesting) (hd : (level.denote compile).outcome m = (.ok f, m'))
    (hlevel : level.others ≠ []) (hop : t.logicalOp? = some op) (hne : op ≠ level.op)
    {l : Lexer} (hl : l.Gives s) (es : List StackEntry) (fs : List Filter) :
    (readTerm compile n ⟨l, inside none es fs⟩).outcome m = (.error .mixedOperators, m') := by
  obtain ⟨l₁, chosen, hl₁, -, hchosen, hrun⟩ := run_level level n hs hn hd hl es fs
  obtain rfl := hchosen hlevel
  obtain ⟨l₂, -, hres⟩ := resume_operator compile n (some level.op) es f fs m' hl₁ hop
  rw [hrun, hres, if_neg (by simp [hne.symm])]

end Parser

/-! ## Whole expressions -/

section Whole

open Compilation Grammar

variable {compile : Comparison → Compilation Filter}

theorem parseExpression_eq (text : String) :
    parseExpression compile text = (do
      let p ← Parser.readTerm compile 0 ⟨Lexer.ofString text, Stacks.start⟩
      let (trailing, _) ← Compilation.ofExcept p.lexer.next
      match trailing.token with
      | .eof => Compilation.ofExcept p.stack.finish
      | .symbol ')' => throw .unbalancedParentheses
      | t => throw (.unexpectedToken (.token t) .operatorOrEnd trailing.position)) := by
  refine Eq.symm ((bind_map_left _ _ _).trans ?_)
  rfl

/-- An expression is compiled if it is spelled by a syntax tree within the greatest nesting, and
then to the filter of that tree. -/
theorem parseExpression_eq_ok {text : String} {m m' : Memos} {f : Filter} :
    (parseExpression compile text).outcome m = (.ok f, m') ↔
      ∃ level : Level, level.Spells (TokenStream.ofString text) .done ∧
        level.nesting ≤ maxNesting ∧ (level.denote compile).outcome m = (.ok f, m') := by
  have hstart := TokenStream.gives_ofString text
  rw [parseExpression_eq]
  constructor
  · intro h
    obtain ⟨p, m₁, hterm, h⟩ := bind_eq_ok.mp h
    obtain ⟨⟨x, l⟩, m₂, hread, h⟩ := bind_eq_ok.mp h
    obtain ⟨hnext, rfl⟩ := ofExcept_eq_ok.mp hread
    obtain ⟨first, op, others, g, gs, m₃, s, chosen, hsp, hn, hd, hds, -, hp, hst⟩ :=
      (Parser.sound ⟨Lexer.ofString text, Stacks.start⟩).2 (w := none)
        (Nat.zero_le _) hstart rfl hterm
    simp only at h
    split at h
    · rename_i hx
      obtain ⟨hfin, rfl⟩ := ofExcept_eq_ok.mp h
      obtain rfl : s = .done := hp.stream_eq.symm.trans (Lexer.stream_of_eof hnext hx)
      rw [hst] at hfin
      obtain rfl := Except.ok.inj hfin
      refine ⟨.mk first op others, hsp, by omega, ?_⟩
      simp only [Level.denote]
      rw [outcome_bind_of_ok hd, outcome_bind_of_ok hds]
      rfl
    · cases h
    · cases h
  · rintro ⟨level, hsp, hn, hd⟩
    obtain ⟨l, chosen, hl, -, -, hrun⟩ :=
      Parser.run_level level 0 hsp (by omega) hd hstart [] []
    obtain ⟨l', hend, hl'⟩ :=
      Parser.resume_end compile 0 chosen [] f [] m' hl TokenStream.readable_done rfl
    obtain ⟨x, l'', hnext, hx, -⟩ := hl'.next TokenStream.readable_done
    rw [TokenStream.head_done] at hx
    have hterm : (Parser.readTerm compile 0 ⟨Lexer.ofString text, Stacks.start⟩).outcome m =
        (.ok ⟨l', [.level chosen], [f]⟩, m') := hrun.trans hend
    rw [outcome_bind_of_ok hterm, hnext]
    simp [Compilation.ofExcept, hx, Stacks.finish]

/-- A single comparison compiles on its own as it does in an expression. -/
theorem parseExpression_of_reads {text : String} {c : Comparison} {m : Memos}
    (h : Reader.Reads Comparison.readNext (TokenStream.ofString text) c .done) :
    (parseExpression compile text).outcome m = (compile c).outcome m := by
  have hstart := TokenStream.gives_ofString text
  obtain ⟨l', hread, -⟩ := h _ hstart
  obtain ⟨x, l, hx, hr⟩ := Reader.bind_eq_ok.mp hread
  cases hc : (compile c).outcome m with
  | mk r m' =>
    cases r with
    | error cause =>
      rw [parseExpression_eq, Parser.readTerm_eq,
        Parser.readFactor_comparison (p := ⟨Lexer.ofString text, .start⟩) compile hx hr]
      exact outcome_bind_of_error (outcome_bind_of_error (outcome_bind_of_error hc))
    | ok f =>
      refine parseExpression_eq_ok.mpr ⟨.mk (.comparison c) .and [], ?_, ?_, ?_⟩
      · exact ⟨.done, h.accepts ⟨_, hstart⟩, rfl⟩
      · simp [Level.nesting, Factor.nesting, nestingEach]
      · exact outcome_bind_of_ok hc

/-- A second logical operator in a level, behind a part that is accepted. -/
theorem parseExpression_mixed {text : String} {before : Opened} {level : Level}
    {s s' : TokenStream} {t : Token} {op : LogicalOp} {m m₁ m' : Memos} {f : Filter}
    (hbefore : before.Spells (TokenStream.ofString text) s) (hfits : before.Fits 0)
    (haccept : (before.accept compile).outcome m = (.ok (), m₁))
    (hlevel : level.Spells s (s'.cons t)) (hn : before.length + level.nesting ≤ maxNesting)
    (hothers : level.others ≠ []) (hd : (level.denote compile).outcome m₁ = (.ok f, m'))
    (hop : t.logicalOp? = some op) (hne : op ≠ level.op) :
    (parseExpression compile text).outcome m = (.error .mixedOperators, m') := by
  rw [parseExpression_eq]
  refine outcome_bind_of_error ?_
  refine Parser.readTerm_opened_error before hbefore hfits haccept (fun l es fs hl => ?_)
    (TokenStream.gives_ofString text) [] []
  rw [Nat.zero_add]
  exact Parser.readTerm_mixed hlevel hn hd hothers hop hne hl es fs

end Whole

end CalendarQuery

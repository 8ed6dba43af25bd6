import CalendarQuery.Proofs.Comparison.Legible
import CalendarQuery.Proofs.Expression.Parser
import CalendarQuery.Proofs.Filter.Tree

/-!
# Canonical text and the greatest nesting

The parser takes the canonical text of a filter to its end if the parentheses in it are within the
greatest nesting, and else refuses it where the first one is that is not; unless a leaf in front of
that fails. So the text is refused for its nesting if and only if its parentheses are too many.

* `Compilation.Runs`: the judgment, with a rule for sequencing.
* `Parser.Comes`: the leaves that are read and compiled, or fail with some cause.
* `Parser.runs_factor`, `Parser.runs_level`, `Parser.runs_further`: the parts of a text.
* `Parser.runs_text`: the whole text.
-/

namespace CalendarQuery

namespace Compilation

variable {α β : Type} {E : QueryError → Prop} {p q : Prop} {V : α → Prop} {W : β → Prop}

/-- The memos stay as they are. If the parentheses that are to come fit, which is `p`, there is a
value of the kind `V`, and if they do not, the failure says so; or there is a failure of the kind
`E` before that. -/
def Runs (E : QueryError → Prop) (p : Prop) (V : α → Prop) (c : Compilation α) : Prop :=
  ∀ m, (∃ a, c.outcome m = (.ok a, m) ∧ p ∧ V a) ∨
    ∃ cause, c.outcome m = (.error cause, m) ∧
      (E cause ∨ ¬p ∧ cause = .nestingTooDeep maxNesting)

namespace Runs

theorem of_iff {c : Compilation α} (h : Runs E p V c) (hpq : p ↔ q) : Runs E q V c := by
  rwa [propext hpq] at h

theorem bind {c : Compilation α} {f : α → Compilation β} (hc : Runs E p V c)
    (hf : ∀ a, V a → Runs E q W (f a)) : Runs E (p ∧ q) W (c >>= f) := by
  intro m
  obtain ⟨a, ha, hp, hV⟩ | ⟨cause, hcause, hE⟩ := hc m
  · rw [outcome_bind_of_ok ha]
    obtain ⟨b, hb, hq, hW⟩ | ⟨cause, hcause, hE⟩ := hf a hV m
    · exact .inl ⟨b, hb, ⟨hp, hq⟩, hW⟩
    · exact .inr ⟨cause, hcause, hE.imp_right fun h => ⟨fun hboth => h.1 hboth.2, h.2⟩⟩
  · exact .inr ⟨cause, outcome_bind_of_error hcause,
      hE.imp_right fun h => ⟨fun hboth => h.1 hboth.1, h.2⟩⟩

end Runs

end Compilation

namespace Parser

open Compilation Stacks Grammar CalendarQuery.Filter TokenStream

/-- A leaf is read from its tokens and compiled to itself, or fails with a cause of the kind `E`. -/
structure Comes (compile : Comparison → Compilation Filter) (E : QueryError → Prop) (f : Filter) :
    Prop where
  read : ∀ {s : TokenStream}, Comparison.Ends s →
    Reader.ReadsOr E Comparison.readNext (s.append f.tokens) f.toComparison s
  compile : ∀ m, (compile f.toComparison).outcome m = (.ok f, m) ∨
    ∃ cause, (compile f.toComparison).outcome m = (.error cause, m) ∧ E cause

/-- What holds at each place of a filter that is made of groups with children over leaves that come
through. -/
def Passes (compile : Comparison → Compilation Filter) (E : QueryError → Prop) : Filter → Prop
  | .and _ children | .or children => children ≠ []
  | f => Comes compile E f

/-- The parser stands before the tokens of `s` with the given stacks. -/
def StandsAt (s : TokenStream) (stack : Stacks) (q : Parser) : Prop :=
  q.lexer.Gives s ∧ q.stack = stack

/-- The parser stands before the tokens of `s` with the filter `f` of a level, over the entries and
filters of the levels around it. -/
def StandsBehind (s : TokenStream) (es : List StackEntry) (f : Filter) (fs : List Filter)
    (q : Parser) : Prop :=
  ∃ chosen, q.StandsAt s ⟨.level chosen :: es, f :: fs⟩

variable {compile : Comparison → Compilation Filter} {E : QueryError → Prop}

theorem head_tokens {f : Filter} (h : f.isGroup = false) (s : TokenStream) :
    (s.append f.tokens).head ≠ .symbol '(' := by
  cases f <;> simp_all [isGroup, Filter.tokens, PropertyPath.tokens]

/-- A leaf where a factor is due. -/
theorem runs_leaf {f : Filter} (hleaf : f.isGroup = false) (hf : Comes compile E f) (n : Nat)
    {s : TokenStream} (hs : Comparison.Ends s) {l : Lexer} (hl : l.Gives (s.append f.tokens))
    {before after : Stacks} (hst : (before.push f).foldPending = .ok after) :
    Runs E True (StandsAt s after) (readFactor compile n ⟨l, before⟩) := by
  intro m
  obtain ⟨l', hread, hl'⟩ | ⟨cause, hread, hcause⟩ := hf.read hs l hl
  · obtain ⟨x, l₁, hx, hr⟩ := Reader.bind_eq_ok.mp hread
    rw [readFactor_comparison (p := ⟨l, before⟩) compile hx hr]
    obtain hc | ⟨cause, hc, hcause⟩ := hf.compile m
    · rw [outcome_bind_of_ok hc, hst]
      exact .inl ⟨⟨l', after⟩, rfl, trivial, hl', rfl⟩
    · exact .inr ⟨cause, outcome_bind_of_error hc, .inl hcause⟩
  · refine .inr ⟨cause, ?_, .inl hcause⟩
    obtain hx | ⟨x, l₁, hx, hr⟩ := Reader.bind_eq_error.mp hread
    · have hnext : l.next = .error cause := hx
      rw [readFactor_eq]
      simp [Compilation.ofExcept, hnext]
    · have hnext : l.next = .ok (x, l₁) := hx
      have htoken : x.token ≠ .symbol '(' := by
        rw [(hl.of_next hnext).2.1]
        exact head_tokens hleaf s
      rw [readFactor_eq]
      simp [Compilation.ofExcept, hnext, htoken, hr]

/-- The level inside a pair of parentheses. -/
theorem runs_parentheses {op : LogicalOp} {children : List Filter} {g : Filter} {n : Nat}
    (hn : n ≤ maxNesting) {s : TokenStream} {l : Lexer} {before after : Stacks}
    (hl : l.Gives (((s.cons (.symbol ')')).append (groupTokens op children)).cons (.symbol '(')))
    (hst : (before.push g).foldPending = .ok after)
    (hlevel : n < maxNesting → ∀ {l : Lexer},
      l.Gives ((s.cons (.symbol ')')).append (groupTokens op children)) →
      Runs E (n + 1 + enclosing children ≤ maxNesting)
        (StandsBehind (s.cons (.symbol ')')) before.entries g before.filters)
        (readTerm compile (n + 1) ⟨l, inside none before.entries before.filters⟩)) :
    Runs E (n + (enclosing children + 1) ≤ maxNesting) (StandsAt s after)
      (readFactor compile n ⟨l, before⟩) := by
  obtain ⟨x, l₁, hx, hpar, hl₁⟩ := hl.next (readable_cons _ _)
  rw [head_cons] at hpar
  -- if this pair is one too many, nothing behind it is read
  by_cases hlt : n < maxNesting
  · rw [readFactor_group (p := ⟨l, before⟩) compile hlt hx hpar]
    refine ((hlevel hlt hl₁).bind (q := True) fun q hq m => ?_).of_iff ?_
    · obtain ⟨chosen, hq, hstack⟩ := hq
      have hclosed : q.stack.closeLevel = .ok (before.push g) := by rw [hstack]; rfl
      obtain ⟨l₂, hclose, hl₂⟩ := readClose_of_gives m hq hclosed hst
      exact .inl ⟨_, hclose, trivial, hl₂, rfl⟩
    · rw [and_true]
      omega
  · intro m
    have hnext : l.next = .ok (x, l₁) := hx
    refine .inr ⟨.nestingTooDeep maxNesting, ?_, .inr ⟨by omega, rfl⟩⟩
    rw [readFactor_eq]
    simp [Compilation.ofExcept, hnext, hpar, Nat.le_of_not_lt hlt]

mutual

theorem runs_factor (f : Filter) (hf : f.Everywhere (Passes compile E)) {n : Nat}
    (hn : n ≤ maxNesting) {s : TokenStream} (hs : Comparison.Ends s) {l : Lexer}
    {before after : Stacks} (hl : l.Gives (s.append (encloseTokens f f.tokens)))
    (hst : (before.push f.normal).foldPending = .ok after) :
    Runs E (n + enclosing [f] ≤ maxNesting) (StandsAt s after)
      (readFactor compile n ⟨l, before⟩) := by
  have hleaf : f.isGroup = false → Comes compile E f →
      Runs E (n + enclosing [f] ≤ maxNesting) (StandsAt s after)
        (readFactor compile n ⟨l, before⟩) := by
    intro hleaf hcomes
    have hl' : l.Gives (s.append f.tokens) := by simpa [encloseTokens, hleaf] using hl
    rw [normal_leaf hleaf] at hst
    exact (runs_leaf hleaf hcomes n hs hl' hst).of_iff (by simp [enclosing_singleton, hleaf, hn])
  cases f with
  | and name children =>
    obtain ⟨hne, hchildren⟩ := everywhere_and.mp hf
    rw [enclosing_singleton]
    have hl' := by simpa [encloseTokens, isGroup, Filter.tokens] using hl
    refine runs_parentheses hn hl' hst fun hlt l hl => ?_
    exact runs_level .and children hne hchildren hlt (ends_symbol s (by decide)) rfl hl _ _
  | or children =>
    obtain ⟨hne, hchildren⟩ := everywhere_or.mp hf
    rw [enclosing_singleton]
    have hl' := by simpa [encloseTokens, isGroup, Filter.tokens] using hl
    refine runs_parentheses hn hl' hst fun hlt l hl => ?_
    exact runs_level .or children hne hchildren hlt (ends_symbol s (by decide)) rfl hl _ _
  | view name filter => exact hleaf rfl hf.self
  | compare => exact hleaf rfl hf.self
  | presence => exact hleaf rfl hf.self
  | entity => exact hleaf rfl hf.self
  | timeRange => exact hleaf rfl hf.self

theorem runs_level (op : LogicalOp) (fs : List Filter) (hne : fs ≠ [])
    (hfs : ∀ f ∈ fs, f.Everywhere (Passes compile E)) {n : Nat} (hn : n ≤ maxNesting)
    {s : TokenStream} (hs : Comparison.Ends s) (hend : s.head.logicalOp? = none) {l : Lexer}
    (hl : l.Gives (s.append (groupTokens op fs))) (es : List StackEntry) (gs : List Filter) :
    Runs E (n + enclosing fs ≤ maxNesting) (StandsBehind s es (merged op (normalEach fs)) gs)
      (readTerm compile n ⟨l, inside none es gs⟩) := by
  cases fs with
  | nil => exact absurd rfl hne
  | cons f fs =>
    obtain ⟨hf, hfs⟩ := List.forall_mem_cons.mp hfs
    rw [groupTokens_cons, append_append] at hl
    rw [readTerm_eq, normalEach, ← folded_eq_merged]
    have hfactor := runs_factor f hf hn (ends_further op fs hs) hl
      (foldPending_push_inside none es gs f.normal)
    refine (hfactor.bind (q := n + enclosing fs ≤ maxNesting) fun q hq => ?_).of_iff ?_
    · obtain ⟨l, stack⟩ := q
      obtain ⟨hl, rfl⟩ := hq
      exact runs_further op fs hfs hn hs hend hl none es f.normal gs (.inl rfl)
    · rw [enclosing_singleton, enclosing]
      omega

theorem runs_further (op : LogicalOp) (fs : List Filter)
    (hfs : ∀ f ∈ fs, f.Everywhere (Passes compile E)) {n : Nat} (hn : n ≤ maxNesting)
    {s : TokenStream} (hs : Comparison.Ends s) (hend : s.head.logicalOp? = none) {l : Lexer}
    (hl : l.Gives (s.append (furtherTokens op fs))) (chosen : Option LogicalOp)
    (es : List StackEntry) (g : Filter) (gs : List Filter)
    (hc : chosen = none ∨ chosen = some op) :
    Runs E (n + enclosing fs ≤ maxNesting) (StandsBehind s es (folded op g (normalEach fs)) gs)
      (resume compile n ⟨l, ⟨.level chosen :: es, g :: gs⟩⟩) := by
  cases fs with
  | nil =>
    intro m
    obtain ⟨l', hresume, hl'⟩ := resume_end compile n chosen es g gs m hl hs.readable hend
    exact .inl ⟨_, hresume, by simpa [enclosing] using hn, chosen, hl', rfl⟩
  | cons f fs =>
    obtain ⟨hf, hfs⟩ := List.forall_mem_cons.mp hfs
    have hstream : s.append (furtherTokens op (f :: fs)) =
        ((s.append (furtherTokens op fs)).append (encloseTokens f f.tokens)).cons
          (.symbol op.symbol) := by simp [furtherTokens]
    rw [hstream] at hl
    intro m
    obtain ⟨l₁, hl₁, hresume⟩ :=
      resume_operator compile n chosen es g gs m hl (logicalOp?_symbol op)
    rw [hresume, if_pos hc, readTerm_eq, normalEach, folded_cons]
    have hfactor := runs_factor f hf hn (ends_further op fs hs) hl₁
      (foldPending_push_inside (some (g, op)) es gs f.normal)
    refine (hfactor.bind (q := n + enclosing fs ≤ maxNesting) fun q hq => ?_).of_iff ?_ m
    · obtain ⟨l, stack⟩ := q
      obtain ⟨hl, rfl⟩ := hq
      exact runs_further op fs hfs hn hs hend hl (some op) es _ gs (.inr rfl)
    · rw [enclosing_singleton, enclosing]
      omega

end

/-- A whole text is the level of a group without its parentheses, or a leaf as the only part of a
level. -/
theorem exists_level_of_passes {f : Filter} (hf : f.Everywhere (Passes compile E)) :
    ∃ op fs, fs ≠ [] ∧ (∀ g ∈ fs, g.Everywhere (Passes compile E)) ∧
      f.tokens = groupTokens op fs ∧ f.parentheses = enclosing fs ∧
      f.normal = merged op (normalEach fs) := by
  cases f with
  | and name children =>
    obtain ⟨hne, hchildren⟩ := everywhere_and.mp hf
    exact ⟨.and, children, hne, hchildren, rfl, rfl, rfl⟩
  | or children =>
    obtain ⟨hne, hchildren⟩ := everywhere_or.mp hf
    exact ⟨.or, children, hne, hchildren, rfl, rfl, rfl⟩
  | _ => exact ⟨.and, [_], by simp, by simpa using hf, rfl, rfl, rfl⟩

/-- The canonical text of a filter compiles to its normal form if its parentheses are within the
greatest nesting, and is refused for its nesting if they are not; unless a leaf fails before. -/
theorem runs_text {f : Filter} (hf : f.Everywhere (Passes compile E)) :
    Runs E (f.parentheses ≤ maxNesting) (fun g => g = f.normal)
      (parseExpression compile f.text) := by
  obtain ⟨op, fs, hne, hfs, htokens, hparentheses, hnormal⟩ := exists_level_of_passes hf
  have hgives := gives_ofString f.text
  rw [ofString_text, htokens] at hgives
  have hlevel := runs_level op fs hne hfs (Nat.zero_le _) ends_done rfl hgives [] []
  rw [parseExpression_eq, hparentheses, hnormal]
  refine (hlevel.bind (q := True) fun p hp m => ?_).of_iff (by rw [and_true, Nat.zero_add])
  obtain ⟨chosen, hp, hstack⟩ := hp
  obtain ⟨x, l, hnext, hx, -⟩ := hp.next readable_done
  rw [head_done] at hx
  refine .inl ⟨_, ?_, trivial, rfl⟩
  rw [hnext, hstack]
  simp [Compilation.ofExcept, hx, Stacks.finish]

end Parser

end CalendarQuery

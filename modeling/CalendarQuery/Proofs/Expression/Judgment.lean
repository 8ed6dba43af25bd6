import CalendarQuery.Proofs.Comparison.Reading
import CalendarQuery.Proofs.Compiler
import CalendarQuery.Proofs.Selection.Judgment

/-!
# Judgments about parsers

What is judged of the comparisons of an expression holds of the expression. The parser goes along
its stacks, whose shape inside a level is known, so that it never fails for want of a filter.

* `Parser.judge_readTerm`: the factors of a level.
* `judge_parseExpression`: a whole expression.
* `Compiler.judge_compileWithin`: an expression that is compiled in some context.
* `Compiler.keeps_of_attached`: what a compilation keeps, given that of the attached filters.
-/

namespace CalendarQuery

open Compilation Stacks

namespace Parser

/-- What is known of the parser behind a part of a level, which started from `p` inside the levels
with the entries `es` and the filters `fs`. -/
def LevelRead (K : Reading) (F : Filter → Prop) (p : Parser) (es : List StackEntry) (fs : List Filter)
    (q : Parser) : Prop :=
  K.lexer q.lexer ∧ q.lexer.size < p.lexer.size ∧
    ∃ chosen f, F f ∧ q.stack = ⟨.level chosen :: es, f :: fs⟩

variable {ι : Type} {E : QueryError → Prop}
  {J : ∀ {α : Type}, (α → Prop) → Compilation α → (ι → Compilation α) → Prop}
  {F : Filter → Prop} {K : Reading} {compile : Comparison → Compilation Filter}
  {d : ι → Comparison → Compilation Filter}

theorem judge_next (hJ : Judgment E J) (hK : K.Lawful) (hE : ∀ {cause}, K.cause cause → E cause)
    {l : Lexer} (hl : K.lexer l) :
    J (fun r => l.next = .ok r ∧ K.lexeme r.1 ∧ K.lexer r.2) (Compilation.ofExcept l.next)
      fun _ => Compilation.ofExcept l.next :=
  hJ.ofExcept (fun _ h => ⟨h, hK.next hl h⟩) fun _ h => hE (hK.unread hl h)

theorem inherited_joined (hF : Filter.Inherited F) {w : Option (Filter × LogicalOp)}
    (hw : ∀ x ∈ w, F x.1) {f : Filter} (hf : F f) : F (joined w f) := by
  rcases w with _ | ⟨left, op⟩
  · exact hf
  · exact hF.fold op (hw (left, op) rfl) hf

theorem readClose_of_error {q : Parser} {cause : QueryError} (hn : q.lexer.next = .error cause) :
    readClose q = throw cause := by
  unfold readClose close
  split
  · rename_i hn'
    rw [hn] at hn'
    cases hn'
    rfl
  · rename_i hn'
    rw [hn] at hn'
    cases hn'

theorem readClose_other {q : Parser} {x : Lexeme} {l : Lexer} (hn : q.lexer.next = .ok (x, l))
    (hx : x.token ≠ .symbol ')') : readClose q = throw (if x.token = .eof then
      .unbalancedParentheses else .unexpected x .operatorOrClosing) := by
  unfold readClose close
  split
  · rename_i hn'
    rw [hn] at hn'
    cases hn'
  · rename_i hn'
    rw [hn] at hn'
    cases hn'
    split
    · rename_i ht
      exact absurd ht hx
    · rename_i ht
      rw [if_pos ht]
      rfl
    · rename_i _ heof
      rw [if_neg heof, QueryError.unexpected]
      split
      · contradiction
      · rfl

theorem judge_readClose (hJ : Judgment E J) (hF : Filter.Inherited F) (hK : K.Lawful)
    (hE : ∀ {cause}, K.cause cause → E cause) {p q : Parser} {w : Option (Filter × LogicalOp)}
    {es : List StackEntry} {fs : List Filter} (hw : ∀ x ∈ w, F x.1)
    (hq : LevelRead K F p (inside w es fs).entries (inside w es fs).filters q) :
    J (LevelRead K F p es fs) (readClose q) fun _ => readClose q := by
  obtain ⟨hl, hsize, chosen, f, hf, hstack⟩ := hq
  cases hn : q.lexer.next with
  | error cause =>
    rw [readClose_of_error hn]
    exact hJ.throw (hE (hK.unread hl hn))
  | ok next =>
    obtain ⟨x, l⟩ := next
    obtain ⟨hx, hl'⟩ := hK.next hl hn
    by_cases hsymbol : x.token = .symbol ')'
    · have hfold := foldPending_push_inside w es fs f
      have hle := Lexer.size_next_le hn
      rw [readClose_symbol hn hsymbol, hstack]
      simp only [closeLevel, Compilation.ofExcept, pure_bind]
      have hpush : (⟨(inside w es fs).entries, f :: (inside w es fs).filters⟩ : Stacks) =
          (inside w es fs).push f := rfl
      rw [hpush, hfold]
      simp only [pure_bind]
      exact hJ.pure ⟨hl', by simp only; omega, _, _, inherited_joined hF hw hf, rfl⟩
    · rw [readClose_other hn hsymbol]
      refine hJ.throw (hE ?_)
      split
      · exact hK.placeless rfl
      · exact hK.unexpected _ hx

/-- One factor, given the levels of what is left behind its first token. -/
theorem judge_readFactor (hJ : Judgment E J) (hF : Filter.Inherited F) (hK : K.Lawful)
    (hE : ∀ {cause}, K.cause cause → E cause)
    (hcompile : ∀ c : Comparison, c.Admissible K.Word → J F (compile c) fun i => d i c)
    {p : Parser} {w : Option (Filter × LogicalOp)} {es : List StackEntry} {fs : List Filter}
    (ih : ∀ p' : Parser, p'.lexer.size < p.lexer.size → ∀ n w es fs, K.lexer p'.lexer →
      p'.stack = inside w es fs → (∀ x ∈ w, F x.1) →
      J (LevelRead K F p' es fs) (readTerm compile n p') fun i => readTerm (d i) n p')
    (n : Nat) (hl : K.lexer p.lexer) (hstack : p.stack = inside w es fs) (hw : ∀ x ∈ w, F x.1) :
    J (LevelRead K F p es fs) (readFactor compile n p) fun i => readFactor (d i) n p := by
  simp only [readFactor_eq]
  refine hJ.bind (judge_next hJ hK hE hl) fun next hnext => ?_
  obtain ⟨x, l⟩ := next
  obtain ⟨hn, hx, hl'⟩ := hnext
  simp only
  split
  · rename_i hopen
    have hsize : l.size < p.lexer.size := Lexer.size_next_lt hn (by simp [hopen])
    split
    · exact hJ.throw (hE (hK.placeless rfl))
    · have hlevel : p.stack.openLevel =
          inside none (inside w es fs).entries (inside w es fs).filters := by
        rw [hstack, openLevel_inside]
      refine hJ.bind (ih ⟨l, p.stack.openLevel⟩ hsize (n + 1) none _ _ hl' hlevel (by simp))
        fun q hq => judge_readClose hJ hF hK hE hw ?_
      obtain ⟨hql, hqsize, hstackq⟩ := hq
      exact ⟨hql, Nat.lt_trans hqsize hsize, hstackq⟩
  · refine hJ.bind (V := fun r => K.lexer r.2 ∧ r.2.size < p.lexer.size ∧
      Comparison.Admissible K.Word r.1) (hJ.ofExcept (fun r hr => ?_) fun cause hcause => ?_)
      fun r hr => ?_
    · obtain ⟨hc, hl''⟩ := (Comparison.obeys_read hK hx l hl').1 r.1 r.2 hr
      exact ⟨hl'', Nat.lt_of_le_of_lt (Comparison.keeps_read x _ _ _ hr)
        (Lexer.size_next_lt hn (Comparison.token_of_read hr)), hc⟩
    · exact hE ((Comparison.obeys_read hK hx l hl').2 cause hcause)
    · obtain ⟨c, l''⟩ := r
      obtain ⟨hl'', hsize, hc⟩ := hr
      refine hJ.bind (hcompile c hc) fun f hf => ?_
      rw [hstack, foldPending_push_inside]
      simp only [Compilation.ofExcept, pure_bind]
      exact hJ.pure ⟨hl'', hsize, _, _, inherited_joined hF hw hf, rfl⟩

/-- The factors of a level; the induction is on what is left to read, which a factor shortens. -/
theorem judge_readTerm (hJ : Judgment E J) (hF : Filter.Inherited F) (hK : K.Lawful)
    (hE : ∀ {cause}, K.cause cause → E cause)
    (hcompile : ∀ c : Comparison, c.Admissible K.Word → J F (compile c) fun i => d i c)
    (p : Parser) (n : Nat) (w : Option (Filter × LogicalOp)) (es : List StackEntry)
    (fs : List Filter) (hl : K.lexer p.lexer) (hstack : p.stack = inside w es fs)
    (hw : ∀ x ∈ w, F x.1) :
    J (LevelRead K F p es fs) (readTerm compile n p) fun i => readTerm (d i) n p := by
  induction hs : p.lexer.size using Nat.strongRecOn generalizing p n w es fs with
  | ind size ih =>
    subst hs
    have ih' : ∀ p' : Parser, p'.lexer.size < p.lexer.size → ∀ n w es fs, K.lexer p'.lexer →
        p'.stack = inside w es fs → (∀ x ∈ w, F x.1) →
        J (LevelRead K F p' es fs) (readTerm compile n p') fun i => readTerm (d i) n p' :=
      fun p' hlt n w es fs hl' hstack' hw' => ih _ hlt p' n w es fs hl' hstack' hw' rfl
    simp only [readTerm_eq]
    refine hJ.bind (judge_readFactor hJ hF hK hE hcompile ih' n hl hstack hw) fun q hq => ?_
    obtain ⟨hql, hqsize, chosen, f, hf, hqstack⟩ := hq
    simp only [resume]
    refine hJ.bind (judge_next hJ hK hE hql) fun next hnext => ?_
    obtain ⟨x, l⟩ := next
    obtain ⟨hn, hx, hl'⟩ := hnext
    have hsize : l.size < p.lexer.size := Nat.lt_of_le_of_lt (Lexer.size_next_le hn) hqsize
    simp only [hqstack]
    split
    · rename_i op _
      by_cases hchosen : chosen = none ∨ chosen = some op
      · rw [choose_level es (f :: fs) hchosen]
        simp only [Compilation.ofExcept, pure_bind]
        refine hJ.mono (ih' ⟨l, _⟩ hsize n (some (f, op)) es fs hl' rfl (by simpa using hf)) ?_
        exact fun r hr => ⟨hr.1, Nat.lt_trans hr.2.1 hsize, hr.2.2⟩
      · rw [choose_level_ne es (f :: fs) hchosen]
        exact hJ.throw (hE (hK.placeless rfl))
    · simp only [foldPending, Compilation.ofExcept, pure_bind]
      exact hJ.pure ⟨hK.pushBack hql hn,
        Nat.lt_of_le_of_lt (Lexer.size_pushBack_next hn) hqsize, chosen, f, hf, rfl⟩

end Parser

variable {ι : Type} {E : QueryError → Prop}
  {J : ∀ {α : Type}, (α → Prop) → Compilation α → (ι → Compilation α) → Prop}
  {F : Filter → Prop} {K : Reading} {compile : Comparison → Compilation Filter}
  {d : ι → Comparison → Compilation Filter}

/-- What is judged of the comparisons that a text can have holds of the expression. -/
theorem judge_parseExpression (hJ : Judgment E J) (hF : Filter.Inherited F) (hK : K.Lawful)
    (hE : ∀ {cause}, K.cause cause → E cause)
    (hcompile : ∀ c : Comparison, c.Admissible K.Word → J F (compile c) fun i => d i c)
    {text : String} (htext : K.lexer (Lexer.ofString text)) :
    J F (parseExpression compile text) fun i => parseExpression (d i) text := by
  simp only [parseExpression_eq]
  refine hJ.bind (Parser.judge_readTerm hJ hF hK hE hcompile ⟨Lexer.ofString text, .start⟩ 0 none
    [] [] htext rfl (by simp)) fun p hp => ?_
  obtain ⟨hl, -, chosen, f, hf, hstack⟩ := hp
  refine hJ.bind (Parser.judge_next hJ hK hE hl) fun next hnext => ?_
  obtain ⟨x, l⟩ := next
  obtain ⟨-, hx, -⟩ := hnext
  simp only [hstack]
  split
  · exact hJ.pure hf
  · exact hJ.throw (hE (hK.placeless rfl))
  · rename_i heof _
    have hcause := hK.unexpected .operatorOrEnd hx
    unfold QueryError.unexpected at hcause
    split at hcause
    · contradiction
    · exact hJ.throw (hE hcause)

namespace Compiler

variable {P : Collection → Prop} {Q : String → Prop} {c : Compiler} {explicit : Bool}
  {levels : Nat} {resolving : List String} {text : String}

/-- What is judged of a selection and of its views holds of an expression, if the words of the
expression may be asked for. -/
theorem judge_compileWithin {t : ι → Selection} {v : ι → String → Compilation Filter}
    (hs : ∀ narrow, Selection.Beside E J F P Q narrow (c.selection explicit levels resolving) t)
    (hE : ∀ {cause}, (Reading.quoting Q).cause cause → E cause)
    (hview : ∀ name, J F ((c.selection explicit levels resolving).viewFilter name) fun i => v i name)
    (htext : (Reading.quoting Q).lexer (Lexer.ofString text)) :
    J F (c.compileWithin explicit levels resolving text) fun i =>
      if c.limits.admits text then parseExpression ((t i).compileBy (v i)) text
      else throw (.tooLong text.utf8ByteSize c.limits.maxExpressionLength) := by
  have ht := hs true
  by_cases hlength : c.limits.admits text = true
  · simp only [compileWithin_of_admits hlength, if_pos hlength]
    refine judge_parseExpression ht.judgment ht.inherited (Reading.lawful_quoting Q) hE
      (fun comparison hc => ?_) htext
    rw [Selection.compile_eq_compileBy]
    exact Selection.Beside.compileBy hs hview (hc.mono fun _ => Reading.word_of_quoting)
  · simp only [compileWithin_eq, if_neg hlength]
    exact ht.judgment.throw (ht.placeless rfl)

/-- A compilation keeps what its selection keeps, if the collections of views may be asked for. -/
theorem keeps_compileWithin {t : Unit → Selection}
    (hs : ∀ narrow, Selection.Beside E (fun V c _ => Keeps F E V c) F P Q narrow
      (c.selection explicit levels resolving) t)
    (hE : ∀ {cause}, (Reading.quoting Q).cause cause → E cause)
    (hview : ∀ {name : String} {view : View}, c.hierarchy.view name = .ok (some view) →
      ∀ path ∈ view.collections, Q path)
    (htext : (Reading.quoting Q).lexer (Lexer.ofString text)) :
    Keeps F E F (c.compileWithin explicit levels resolving text) :=
  judge_compileWithin (v := fun i => (t i).viewFilter) hs hE ((hs true).keeps_viewFilter hview) htext

/-- A selection keeps what the attached filters keep that it compiles: along the chains of paths that
it asks for, and at aliases that it expands. -/
theorem beside_of_attached (hF : Filter.Inherited F)
    (hE : ∀ {cause : QueryError}, cause.isPlaceless = true → E cause) (hP : c.hierarchy.Answers P)
    (hchained : ∀ {vpath : String} {d : Collection} {expression : String}, vpath ∉ resolving →
      Q vpath → P d → d.filter = some expression →
      Keeps F E F (c.attachedWithin explicit levels resolving vpath d.path expression))
    (hlinked : ∀ {d : Collection} {expression : String}, P d → d.kind = .link →
      d.filter = some expression →
      Keeps F E F (c.attachedWithin explicit levels resolving d.path d.path expression))
    (narrow : Bool) :
    Selection.Beside E (fun V c _ => Keeps F E V c) F P Q narrow
      (c.selection explicit levels resolving)
      fun _ : Unit => c.selection explicit levels resolving :=
  Selection.beside_of_hierarchy (judgment_keeps _ _) hF hE (fun _ => rfl) (fun _ => rfl) hP
    (fun _ => Keeps.throw (hE rfl)) (fun h _ => h) (fun _ => hchained) (fun _ => hlinked)

/-- A compilation keeps what the attached filters keep that it compiles. -/
theorem keeps_of_attached (hF : Filter.Inherited F)
    (hE : ∀ {cause}, (Reading.quoting Q).cause cause → E cause) (hP : c.hierarchy.Answers P)
    (hchained : ∀ {vpath : String} {d : Collection} {expression : String}, vpath ∉ resolving →
      Q vpath → P d → d.filter = some expression →
      Keeps F E F (c.attachedWithin explicit levels resolving vpath d.path expression))
    (hlinked : ∀ {d : Collection} {expression : String}, P d → d.kind = .link →
      d.filter = some expression →
      Keeps F E F (c.attachedWithin explicit levels resolving d.path d.path expression))
    (hview : ∀ {name : String} {view : View}, c.hierarchy.view name = .ok (some view) →
      ∀ path ∈ view.collections, Q path)
    (htext : (Reading.quoting Q).lexer (Lexer.ofString text)) :
    Keeps F E F (c.compileWithin explicit levels resolving text) :=
  keeps_compileWithin
    (beside_of_attached hF (fun h => hE ((Reading.lawful_quoting Q).placeless h)) hP hchained hlinked)
    hE hview htext

end Compiler

end CalendarQuery

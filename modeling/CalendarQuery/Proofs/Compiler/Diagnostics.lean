import CalendarQuery.Proofs.Expression.Pairing
import CalendarQuery.Proofs.Sort
import CalendarQuery.Proofs.Token.Places

/-!
# Where failures point

A cause that names a place names one of the tokens of the text that was given.

* `Compiler.keeps_comparison`: the comparisons of an expression fail with other causes.
* `Compiler.cause_located`, `parseSort_located`: causes tell the truth about the tokens of the text.
* `Compiler.compile_cutShort`, `parseSort_cutShort`: where an expression is said to end too early,
  all of its tokens have been read.
-/

namespace CalendarQuery

namespace Compiler

open Compilation

variable {c : Compiler} {explicit : Bool} {levels : Nat} {resolving : List String}
  {text text' : String}

/-- Comparisons fail with causes that tell of no token. -/
theorem keeps_comparison {E : QueryError → Prop}
    (hE : ∀ {cause : QueryError}, cause.tellsOfToken = false → E cause) {comparison : Comparison}
    (h : comparison.Admissible fun _ => True) :
    Keeps (fun _ => True) E (fun _ => True)
      ((c.selection explicit levels resolving).compile comparison) := by
  have hattached : ∀ vpath owner expression, Keeps (fun _ => True) E (fun _ => True)
      (c.attachedWithin explicit levels resolving vpath owner expression) := by
    intro vpath owner expression
    cases levels with
    | zero => exact Keeps.throw (hE rfl)
    | succ levels =>
      exact Keeps.mapError (E := fun _ => True)
        (fun m hm => ⟨fun _ => trivial, fun _ _ => trivial, fun _ _ => trivial⟩) fun _ _ => hE rfl
  have hs (narrow : Bool) : Selection.Beside E (fun V c _ => Keeps (fun _ => True) E V c)
      (fun _ => True) (fun _ => True) (fun _ => True) narrow (c.selection explicit levels resolving)
      fun _ : Unit => c.selection explicit levels resolving :=
    beside_of_attached Filter.inherited_true
      (fun h => hE (QueryError.tellsOfToken_of_isPlaceless h)) c.hierarchy.answers_true
      (fun _ _ _ _ => hattached _ _ _) (fun _ _ _ => hattached _ _ _) narrow
  rw [Selection.compile_eq_compileBy]
  exact Selection.Beside.compileBy
    (v := fun _ => (c.selection explicit levels resolving).viewFilter) hs
    ((hs true).keeps_viewFilter fun _ _ _ => trivial) h

/-! ## Places -/

theorem keeps_located : Keeps (fun _ => True) (QueryError.Located text) (fun _ => True)
    (c.compileWithin explicit levels resolving text) := by
  rw [compileWithin_eq]
  split
  · exact judge_parseExpression
      (d := fun _ : Unit => (c.selection explicit levels resolving).compile)
      (judgment_keeps _ _) Filter.inherited_true (Reading.lawful_placing text) id
      (fun comparison h => keeps_comparison QueryError.located_of_not_tellsOfToken
        (h.mono fun _ _ => trivial)) (Reading.placing_ofString text)
  · exact Keeps.throw trivial

/-- The cause of a failure tells the truth about the tokens of the expression. -/
theorem cause_located {m m' : Memos} {cause : QueryError}
    (h : (c.compileWithin explicit levels resolving text).outcome m = (.error cause, m')) :
    cause.Located text :=
  (keeps_located m fun _ => trivial).2.2 cause (congrArg Prod.fst h)

/-! ## The end of an expression -/

/-- Where an expression is said to end too early, whatever text has its first tokens and then breaks
off is not parsed, because it breaks off. -/
theorem compile_cutShort {m m' : Memos} {expected : Expected} {e : QueryError}
    (h : (c.compile explicit text).outcome m = (.error (.unexpectedEnd expected), m'))
    (hcut : Lexer.CutShort text text' e) :
    ∃ m'', (parseExpression (c.comparing explicit) text').outcome m = (.error e, m'') := by
  have hadmits : c.limits.admits text = true := by
    by_contra hlong
    rw [compile, compileWithin_eq, if_neg hlong] at h
    cases h
  rw [compile, compileWithin_of_admits hadmits] at h
  have hcompared : ∀ comparison : Comparison, comparison.Admissible (fun _ => True) →
      Paired (Pairing.cutShort e) Eq (c.comparing explicit comparison)
        (c.comparing explicit comparison) := fun comparison hc =>
    Paired.refl fun m cause hcause => by
      obtain ⟨m₁, hcause⟩ := result_eq_error.mp hcause
      exact (keeps_comparison (E := (Pairing.cutShort e).cause) (Pairing.lawful_cutShort e).other
        hc m fun _ => trivial).2.2 cause (congrArg Prod.fst hcause)
  have hpaired := paired_parseExpression (Pairing.lawful_cutShort e) hcompared hcut m
  rw [comparing, result_eq_error.mpr ⟨m', h⟩] at hpaired
  exact result_eq_error.mp hpaired.eq_error_of_cutShort

end Compiler

/-! ## Sort expressions -/

/-- A sort expression fails as one that is too long, or as its keys are read. -/
theorem parseSort_eq_error {limits : Limits} {text : String} {cause : QueryError} :
    parseSort limits text = .error cause ↔
      limits.admits text = false ∧ cause = .tooLong text.utf8ByteSize limits.maxExpressionLength ∨
      limits.admits text = true ∧ text.toList.all Text.isBlank = false ∧
        SortKey.readAll limits.defaultSortAscending (Lexer.ofString text) = .error cause := by
  unfold parseSort
  cases limits.admits text with
  | false => simp [eq_comm (a := cause)]
  | true =>
    cases text.toList.all Text.isBlank with
    | true => simp
    | false =>
      rcases SortKey.readAll limits.defaultSortAscending (Lexer.ofString text) with _ | _ <;>
        simp [Except.map]

theorem parseSort_located {limits : Limits} {text : String} {cause : QueryError}
    (h : parseSort limits text = .error cause) : cause.Located text := by
  obtain ⟨-, rfl⟩ | ⟨-, -, hread⟩ := parseSort_eq_error.mp h
  · trivial
  · exact (SortKey.obeys_readAll (Reading.lawful_placing text) _ _
      (Reading.placing_ofString text)).2 cause hread

theorem parseSort_cutShort {limits : Limits} {text text' : String} {expected : Expected}
    {e : QueryError} (h : parseSort limits text = .error (.unexpectedEnd expected))
    (hcut : Lexer.CutShort text text' e) :
    SortKey.readAll limits.defaultSortAscending (Lexer.ofString text') = .error e := by
  obtain ⟨-, hlong⟩ | ⟨-, -, hread⟩ := parseSort_eq_error.mp h
  · cases hlong
  have hpaired := SortKey.paired_readAll (Pairing.lawful_cutShort e) limits.defaultSortAscending
    (Lexer.ofString text) (Lexer.ofString text') hcut
  rw [hread] at hpaired
  exact hpaired.eq_error_of_cutShort

namespace Compiler

theorem sort_eq_failed {c : Compiler} {text label : String} {cause : QueryError} :
    c.sort text = .failed label cause ↔ label = "" ∧ parseSort c.limits text = .error cause := by
  unfold sort
  rcases parseSort c.limits text with _ | _ <;> simp [eq_comm]

/-- Whatever expression or sort expression fails, the cause tells the truth about its tokens
(`QueryError.Located`). And where it is said to end too early all of its tokens have been read, and
its end: after any number of them there are texts that break off, and all of these fail because they
do. -/
theorem failed_located (c : Compiler) (text : String) :
    (∀ (explicit : Bool) (source label : String) (m m' : Memos) (cause : QueryError),
      c.filter text explicit source m = (.failed label cause, m') →
        cause.Located text ∧ ∀ expected, cause = .unexpectedEnd expected →
          ∀ (text' : String) (e : QueryError), Lexer.CutShort text text' e → ∃ m'',
            (parseExpression (c.comparing explicit) text').outcome m = (.error e, m'')) ∧
    (∀ (label : String) (cause : QueryError), c.sort text = .failed label cause →
      cause.Located text ∧ ∀ expected, cause = .unexpectedEnd expected →
        ∀ (text' : String) (e : QueryError), Lexer.CutShort text text' e →
          SortKey.readAll c.limits.defaultSortAscending (Lexer.ofString text') = .error e) ∧
    ∀ k, ∃ text' e, Lexer.CutShort text text' e ∧
      (Lexer.ofString text').lexemes.1 = (Lexer.ofString text).lexemes.1.take k := by
  refine ⟨fun explicit source label m m' cause h => ?_, fun label cause h => ?_,
    Lexer.exists_cutShort text⟩
  · have hcompile := (filter_eq_failed.mp h).2
    refine ⟨cause_located hcompile, ?_⟩
    rintro expected rfl text' e hcut
    exact compile_cutShort hcompile hcut
  · have hsort := (sort_eq_failed.mp h).2
    refine ⟨parseSort_located hsort, ?_⟩
    rintro expected rfl text' e hcut
    exact parseSort_cutShort hsort hcut

end Compiler

end CalendarQuery

import CalendarQuery.Proofs.Calls
import CalendarQuery.Proofs.Comparison.WordList

/-!
# Expressions with a list of words

A comparison with a list of words compiles, in whatever context, if and only if the comparisons with
each of its words do when they are compiled one after the other, and then to all of their filters.

* `Compiler.compileWithin_of_heads`: a text whose comparison is behind a known path and operator.
* `Compiler.compileWithin_wordList`: what a list compiles to, and with which cause it fails.
-/

namespace CalendarQuery.Compiler

open Compilation Comparison TokenStream

variable {c : Compiler} {explicit : Bool} {levels : Nat} {resolving : List String}
  {head : List Token} {path : PropertyPath} {operator : Comparator}

theorem compileWithin_of_heads (hhead : Heads head path operator)
    (htakes : TakesWords path operator) {words : List String} (hne : words ≠ []) {s : TokenStream}
    (hs : s.Readable) (he : s.head ≠ .symbol '=') (hwords : Reader.Reads readWords s words .done)
    {text : String} (htext : ofString text = s.append head) (hlength : c.limits.admits text = true) :
    c.compileWithin explicit levels resolving text =
      (c.selection explicit levels resolving).compile (.ofWords path operator words) := by
  have hreads := hhead.reads htakes hne hs he hwords
  rw [← htext] at hreads
  refine Compilation.ext fun m => ?_
  rw [compileWithin_of_admits hlength, parseExpression_of_reads hreads]

/-- Behind a path and an operator that take it, a list compiles if and only if each of its words does
behind the same path and operator, one after the other. A single word gives the filter of the list;
several give an unnamed group that has the filter of each word as a child, as none of these is such
a group itself. A list fails with the cause of its first word that fails. -/
theorem compileWithin_wordList (c : Compiler) (explicit : Bool) (levels : Nat)
    (resolving : List String) (head : List Token) (path : PropertyPath) (operator : Comparator)
    (hhead : Heads head path operator) (htakes : TakesWords path operator) (words : List String)
    (hne : words ≠ []) (listText : String) (wordText : String → String)
    (hlist : ofString listText = (done.append (listTokens words)).append head)
    (hword : ∀ word ∈ words, ofString (wordText word) = (done.cons (.quoted word)).append head)
    (hlength : c.limits.admits listText = true)
    (hlengths : ∀ word ∈ words, c.limits.admits (wordText word) = true) (m m' : Memos) :
    (∀ f, (c.compileWithin explicit levels resolving listText).outcome m = (.ok f, m') ↔
      ∃ fs, (words.mapM fun word => c.compileWithin explicit levels resolving
          (wordText word)).outcome m = (.ok fs, m') ∧
        fs.length = words.length ∧ (∀ g ∈ fs, ∀ children, g ≠ .and none children) ∧
        (words.length = 1 → fs = [f]) ∧ (1 < words.length → f = .and none fs)) ∧
    ∀ cause, (c.compileWithin explicit levels resolving listText).outcome m = (.error cause, m') ↔
      ∃ before word after fs m₁, words = before ++ word :: after ∧
        (before.mapM fun word => c.compileWithin explicit levels resolving
          (wordText word)).outcome m = (.ok fs, m₁) ∧
        (c.compileWithin explicit levels resolving (wordText word)).outcome m₁ =
          (.error cause, m') := by
  let s := c.selection explicit levels resolving
  let single := fun word => c.compileWithin explicit levels resolving (wordText word)
  obtain ⟨hreadable, hopen⟩ := readable_listTokens words .done
  have hwhole : c.compileWithin explicit levels resolving listText =
      s.compile (.ofWords path operator words) :=
    compileWithin_of_heads hhead htakes hne hreadable (by simp [hopen]) (reads_listTokens hne _)
      hlist hlength
  have hsingle : words.mapM single = words.mapM fun word =>
      s.compile (.ofWords path operator [word]) :=
    mapM_congr fun word hm => compileWithin_of_heads hhead htakes (List.cons_ne_nil word [])
      (readable_cons _ _) (by simp) (reads_words word _) (hword word hm) (hlengths word hm)
  have hdistributes : c.compileWithin explicit levels resolving listText =
      Filter.merged .and <$> words.mapM single := by
    rw [hwhole, hsingle, Selection.compile_ofWords hne]
  rw [hdistributes]
  refine ⟨fun f => ?_, fun cause => ?_⟩
  · rw [map_eq_ok]
    refine exists_congr fun fs => and_congr_right fun hfs => ?_
    have hsame : fs.length = words.length := length_of_mapM hfs
    have hfs' : fs ≠ [] := by
      rw [← List.length_pos_iff, hsame]
      exact List.length_pos_iff.mpr hne
    have hnone : ∀ g ∈ fs, ¬g.IsGroupOf .and := by
      rw [hsingle] at hfs
      exact forall_of_mapM Selection.not_isGroupOf_word hfs
    rw [Filter.merged_eq_iff hfs' hnone, hsame]
    exact ⟨fun h => ⟨rfl, fun g hg children hgroup => hnone g hg ⟨children, hgroup⟩, h⟩,
      fun h => h.2.2⟩
  · rw [map_eq_error, mapM_eq_error]

/-- A list with a view that comes twice, which the second word finds remembered. -/
theorem compileWithin_wordList_office :
    Heads ((PropertyPath.single .view).tokens ++ Comparator.equal.tokens) (.single .view) .equal ∧
      TakesWords (.single .view) .equal ∧
      wordsText (.single .view) .equal ["v", "v"] = "view = (\"v\", \"v\")" ∧
      (officeCompiler.compileWithin true 16 [] "view = (\"v\", \"v\")").outcome .empty =
        (.ok (.and none [.view "v" officeView, .view "v" officeView]), ⟨[("v", officeView)]⟩) := by
  have hhead : Heads ((PropertyPath.single .view).tokens ++ Comparator.equal.tokens)
      (.single .view) .equal := heads_tokens (PropertyPath.wellFormed_single rfl) .equal
  have htakes : TakesWords (.single .view) .equal := .inl ⟨by decide, rfl⟩
  have htext : wordsText (.single .view) .equal ["v", "v"] = "view = (\"v\", \"v\")" := by decide
  have hlist := ofString_wordsText (.single .view) .equal (List.cons_ne_nil "v" ["v"])
  rw [htext] at hlist
  have hword : ∀ word, ofString (Filter.equals (.single .view) word).text =
      (done.cons (.quoted word)).append
        ((PropertyPath.single .view).tokens ++ Comparator.equal.tokens) := by
    intro word
    rw [ofString_text]
    simp [Filter.equals, Filter.comparison, Filter.tokens, Operand.token]
  have hlengths : ∀ word ∈ ["v", "v"],
      officeCompiler.limits.admits (Filter.equals (.single .view) word).text = true := by decide
  have hfirst : (officeCompiler.compileWithin true 16 [] (Filter.equals (.single .view) "v").text
      ).outcome .empty = (.ok (.view "v" officeView), ⟨[("v", officeView)]⟩) :=
    (outcome_compile_view (by decide) .empty).trans outcome_viewFilter_office
  have hsecond : (officeCompiler.compileWithin true 16 [] (Filter.equals (.single .view) "v").text
      ).outcome ⟨[("v", officeView)]⟩ = (.ok (.view "v" officeView), ⟨[("v", officeView)]⟩) :=
    (outcome_compile_view (by decide) _).trans (outcome_viewFilter_remembered true)
  have hboth : (["v", "v"].mapM fun word => officeCompiler.compileWithin true 16 []
      (Filter.equals (.single .view) word).text).outcome .empty =
        (.ok [.view "v" officeView, .view "v" officeView], ⟨[("v", officeView)]⟩) := by
    rw [List.mapM_cons, outcome_bind_of_ok hfirst, List.mapM_cons, bind_assoc,
      outcome_bind_of_ok hsecond]
    rfl
  have hboth' := (compileWithin_wordList officeCompiler true 16 [] _ (.single .view) .equal hhead
    htakes ["v", "v"] (List.cons_ne_nil "v" ["v"]) _ _ hlist (fun word _ => hword word) (by decide)
    hlengths .empty _).1 _ |>.mpr ⟨_, hboth, rfl, by simp, by simp, fun _ => rfl⟩
  exact ⟨hhead, htakes, htext, hboth'⟩

end CalendarQuery.Compiler

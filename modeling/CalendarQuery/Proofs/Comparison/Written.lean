import CalendarQuery.Comparison.Compile
import CalendarQuery.Proofs.Comparison.Uniform
import CalendarQuery.Proofs.Compilation
import CalendarQuery.Proofs.Filter.Text

/-!
# Written comparisons read back

* `Filter.RestorableLeaf`: the leaves whose canonical text stands for themselves.
* `Filter.toComparison`: the comparison that the text of a leaf is read as.
* `Comparison.reads_leaf`: it is read from the tokens of the leaf.
* `Comparison.reads_view`, `Comparison.reads_virtualPath`: selections are read from their tokens.
* `Comparison.reads_listTokens`: a list of words is read from its tokens; `ofChars_wordsText` has those
  of a text, and `reads_virtualPaths` a list of virtual paths.
* `Selection.outcome_compile_leaf`: a leaf compiles to itself, and no memo is asked or made.
-/

namespace CalendarQuery

open Reader TokenStream

namespace Filter

/-- A comparison of a path with an operand that can be written as such: the operator takes
operands of that kind, and the property is compared with values. Categories are compared by an
existing uid or by an href. -/
structure Comparable (h : Hierarchy) (path : PropertyPath) (operator : Comparator)
    (operand : Operand) : Prop where
  wellFormed : path.WellFormed
  takesOperand : operator.takesOperand = true
  first_not_mem : path.first ∉ [.entityType, .view, .vpath, .collection]
  of_number : ∀ n, operand = .number n → operator.isCaseless = false ∧ operator.isPrefix = false
  of_categories : path.first = .categories → operator ∈ [.equal, .notEqual] ∧
    ∃ text, operand = .text text ∧
      (path.isExactly [.categories, .href] = true ∨
        path.isExactly [.categories, .uid] = true ∧
          ∃ category, h.categoryWithUid text = .ok (some category))

/-- A leaf whose canonical text stands for it: a comparison with the flags of its operator, or a
leaf of another kind but a view. A time range has a bound, and its bounds are written in full. -/
def RestorableLeaf (h : Hierarchy) : Filter → Prop
  | .compare path operator operand exact negate caseless isPrefix =>
    Comparable h path operator operand ∧
      compare path operator operand exact negate caseless isPrefix =
        comparison path operator operand
  | .presence path _ => path.WellFormed
  | .entity _ => True
  | .timeRange path first last => path.WellFormed ∧ (first.isSome = true ∨ last.isSome = true) ∧
      ∀ t ∈ first.toList ++ last.toList,
        t.nanosecond = 0 ∧ 0 ≤ t.date.year ∧ t.date.year ≤ 9999
  | _ => False

/-- What the text of a leaf is read as. -/
def toComparison : Filter → Comparison
  | .compare path operator (.text uid) exact negate caseless isPrefix =>
    if path.isExactly [.categories, .uid] then .categoryUids path operator [uid]
    else .direct (.compare path operator (.text uid) exact negate caseless isPrefix)
  | f => .direct f

end Filter

/-! ## Operators -/

namespace Comparator

theorem reads_word {c : Comparator}
    (h : c ∈ [isDefined, notDefined, inTimeRange, startsWith, indexed]) (s : TokenStream) :
    Reads read (s.cons (.word c.symbol)) c s :=
  Reads.next_bind fun x hx => by
    simp only [hx, ofWord?_symbol h]
    exact Reads.pure c s

theorem reads_orEqual_plain (c d : Comparator) {s : TokenStream} (hs : s.Readable)
    (he : s.head ≠ .symbol '=') : Reads (readOrEqual c d) s c s :=
  (Reads.accept_other hs he).bind (Reads.pure c s)

theorem reads_orEqual (c d : Comparator) (s : TokenStream) :
    Reads (readOrEqual c d) (s.cons (.symbol '=')) d s :=
  (Reads.accept_symbol '=' s).bind (Reads.pure d s)

/-- An operator is read from its tokens, unless an equals sign follows. -/
theorem reads_tokens (c : Comparator) {s : TokenStream} (hs : s.Readable)
    (he : s.head ≠ .symbol '=') : Reads read (s.append c.tokens) c s := by
  cases c <;> simp only [tokens, append_cons, append_nil]
  case isDefined => exact reads_word (by decide) s
  case notDefined => exact reads_word (by decide) s
  case inTimeRange => exact reads_word (by decide) s
  case startsWith => exact reads_word (by decide) s
  case indexed => exact reads_word (by decide) s
  all_goals
    refine Reads.next_bind fun x hx => ?_
    simp only [hx]
  case equal => exact Reads.pure _ s
  case like => exact Reads.pure _ s
  case greaterThan => exact reads_orEqual_plain _ _ hs he
  case lessThan => exact reads_orEqual_plain _ _ hs he
  case greaterThanOrEqual => exact reads_orEqual _ _ s
  case lessThanOrEqual => exact reads_orEqual _ _ s
  case notEqual => exact Reads.next_bind fun y hy => by simp only [hy]; exact Reads.pure _ s
  case notLike => exact Reads.next_bind fun y hy => by simp only [hy]; exact Reads.pure _ s

/-- The tokens of an operator do not go on with a path. -/
theorem ends_tokens (c : Comparator) (s : TokenStream) : PathSegment.Ends (s.append c.tokens) := by
  cases c <;> simp only [tokens, append_cons, append_nil] <;>
    exact ⟨readable_cons _ _, by simp, by simp⟩

end Comparator

/-! ## Operands -/

namespace Comparison

theorem reads_operand (o : Operand) (s : TokenStream) :
    Reads readOperand (s.cons o.token) o s :=
  Reads.next_bind fun x hx => by
    cases o <;> simp only [hx, Operand.token] <;> exact Reads.pure _ s

theorem reads_text (text : String) (s : TokenStream) :
    Reads readText (s.cons (.quoted text)) text s :=
  Reads.next_bind fun x hx => by simp only [hx]; exact Reads.pure text s

theorem reads_words (text : String) (s : TokenStream) :
    Reads readWords (s.cons (.quoted text)) [text] s :=
  Reads.next_bind fun x hx => by simp only [hx]; exact Reads.pure [text] s

theorem reads_require {allowed : List Comparator} {operator : Comparator} (path : PropertyPath)
    (h : operator ∈ allowed) (s : TokenStream) :
    Reads (require allowed operator path) s () s := by
  rw [require, if_pos (by simpa using h)]
  exact Reads.pure () s

theorem boundOfText_compact (t : Stamp)
    (h : t.nanosecond = 0 ∧ 0 ≤ t.date.year ∧ t.date.year ≤ 9999) :
    boundOfText t.compact = .ok (some t) := by
  obtain ⟨htrim, hne⟩ := t.trim_compact
  simp only [boundOfText, htrim, Stamp.ofBound?_compact t h.2 h.1]
  simp [hne]

/-- A bound is read from its tokens, unless a quoted text follows one that is missing. -/
theorem reads_bound {bound : Option Stamp} {s : TokenStream}
    (h : ∀ t ∈ bound, t.nanosecond = 0 ∧ 0 ≤ t.date.year ∧ t.date.year ≤ 9999)
    (hs : s.Readable) (hq : ∀ text, s.head ≠ .quoted text) :
    Reads readBound (s.append (Filter.boundTokens bound)) bound s := by
  cases bound with
  | some t =>
    simp only [Filter.boundTokens, append_cons, append_nil]
    refine Reads.peek_bind (readable_cons _ _) fun x hx => ?_
    rw [head_cons] at hx
    simp only [hx]
    refine Reads.next_bind fun _ _ => ?_
    rw [boundOfText_compact t (h t rfl)]
    exact Reads.pure _ s
  | none =>
    refine Reads.peek_bind hs fun x hx => ?_
    split
    · rename_i text ht; exact absurd (hx.symm.trans ht) (hq text)
    · exact Reads.pure _ s

/-- Nothing follows that a comparison could go on with. -/
structure Ends (s : TokenStream) : Prop where
  readable : s.Readable
  head_ne_quoted : ∀ text, s.head ≠ .quoted text
  head_ne_equals : s.head ≠ .symbol '='

theorem reads_timeRange {h : Hierarchy} {path : PropertyPath} {first last : Option Stamp}
    {s : TokenStream} (hr : (Filter.timeRange path first last).RestorableLeaf h) (hs : Ends s) :
    Reads (readTimeRange path)
      (s.append (Filter.boundTokens first ++ (.word "to" :: Filter.boundTokens last)))
      (.timeRange path first last) s := by
  obtain ⟨-, hsome, hbounds⟩ := hr
  have hfirst : ∀ t ∈ first, t.nanosecond = 0 ∧ 0 ≤ t.date.year ∧ t.date.year ≤ 9999 :=
    fun t ht => hbounds t (List.mem_append_left _ (by simpa using ht))
  have hlast : ∀ t ∈ last, t.nanosecond = 0 ∧ 0 ≤ t.date.year ∧ t.date.year ≤ 9999 :=
    fun t ht => hbounds t (List.mem_append_right _ (by simpa using ht))
  rw [append_append, append_cons]
  refine (reads_bound hfirst (readable_cons _ _) (by simp)).bind (Reads.next_bind fun x hx => ?_)
  rw [if_pos (by simp [hx, Token.isKeyword])]
  refine (reads_bound hlast hs.readable hs.head_ne_quoted).bind ?_
  rw [if_neg (by rcases hsome with hb | hb <;> simp [Option.isSome_iff_ne_none.mp hb])]
  exact Reads.pure _ s

/-! ## Leaves -/

theorem ofOperand_eq_ok {path : PropertyPath} {operator : Comparator} {operand : Operand}
    (htakes : operator.takesOperand = true)
    (hnumber : ∀ n, operand = .number n → operator.isCaseless = false ∧ operator.isPrefix = false) :
    ofOperand path operator operand = .ok (.comparison path operator operand) := by
  unfold ofOperand
  rw [htakes]
  cases operand with
  | text s => rfl
  | number n =>
    obtain ⟨hc, hp⟩ := hnumber n rfl
    simp [hc, hp]

theorem reads_categories {path : PropertyPath} {operator : Comparator} {text : String}
    (hop : operator ∈ [.equal, .notEqual])
    (hpath : path.isExactly [.categories, .href] = true ∨
      path.isExactly [.categories, .uid] = true) (s : TokenStream) :
    Reads (readCategories path operator) (s.cons (.quoted text))
      (Filter.comparison path operator (.text text)).toComparison s := by
  refine (reads_require path hop _).bind ?_
  by_cases huid : path.isExactly [.categories, .uid] = true
  · rw [if_pos huid, Filter.comparison, Filter.toComparison, if_pos huid]
    exact (reads_words text s).bind (Reads.pure _ s)
  · have hhref : path.isExactly [.categories, .href] = true := hpath.resolve_right huid
    rw [if_neg huid, if_pos hhref, Filter.comparison, Filter.toComparison, if_neg huid]
    exact (reads_words text s).bind (Reads.pure _ s)

/-- A path whose first property is not that of categories does not name their uids. -/
theorem toComparison_of_ne {path : PropertyPath} (operator : Comparator) (operand : Operand)
    (h : path.first ≠ .categories) :
    (Filter.comparison path operator operand).toComparison =
      .direct (.comparison path operator operand) := by
  have huid : path.isExactly [.categories, .uid] = false := by
    simp only [PropertyPath.isExactly, PropertyPath.segments, List.map_cons, beq_eq_false_iff_ne]
    intro he
    exact h (List.cons.inj he).1
  cases operand <;> simp [Filter.comparison, Filter.toComparison, huid]

theorem reads_after {h : Hierarchy} {path : PropertyPath} {operator : Comparator}
    {operand : Operand} (hc : Filter.Comparable h path operator operand) (s : TokenStream) :
    Reads (readAfter path operator) (s.cons operand.token)
      (Filter.comparison path operator operand).toComparison s := by
  obtain ⟨-, htakes, hfirst, hnumber, hcategories⟩ := hc
  simp only [List.mem_cons, List.not_mem_nil, or_false, not_or] at hfirst
  obtain ⟨hentity, hview, hvpath, hcollection⟩ := hfirst
  unfold readAfter
  split
  · simp [Comparator.takesOperand] at htakes
  · simp [Comparator.takesOperand] at htakes
  · simp [Comparator.takesOperand] at htakes
  · rename_i hf; exact absurd hf hentity
  · rename_i hf; exact absurd hf hview
  · rename_i hf; exact absurd hf hvpath
  · rename_i hf; exact absurd hf hcollection
  · rename_i hf
    obtain ⟨hop, text, rfl, hpath⟩ := hcategories hf
    exact reads_categories hop (hpath.imp_right And.left) s
  · rename_i hf
    rw [toComparison_of_ne _ operand hf]
    refine (reads_operand operand s).bind ?_
    rw [ofOperand_eq_ok htakes hnumber]
    exact Reads.pure _ s

/-- A path, an operator, and what follows them. -/
theorem reads_parts {path : PropertyPath} {operator : Comparator} {c : Comparison}
    {s s' : TokenStream} (hpath : path.WellFormed) (hs : s.Readable) (he : s.head ≠ .symbol '=')
    (h : Reads (readAfter path operator) s c s') :
    Reads readNext (s.append (path.tokens ++ operator.tokens)) c s' := by
  rw [append_append, PropertyPath.tokens, append_cons]
  refine Reads.next_bind fun x hx => ?_
  refine (PropertyPath.reads_further hpath (operator.ends_tokens s) hx).bind ?_
  exact (operator.reads_tokens hs he).bind h

/-- A leaf is read from its tokens. -/
theorem reads_leaf {h : Hierarchy} {f : Filter} (hf : f.RestorableLeaf h) {s : TokenStream}
    (hs : Ends s) : Reads readNext (s.append f.tokens) f.toComparison s := by
  cases f with
  | and name children => exact hf.elim
  | or children => exact hf.elim
  | view name filter => exact hf.elim
  | compare path operator operand exact negate caseless isPrefix =>
    obtain ⟨hc, heq⟩ := hf
    have htokens : (Filter.comparison path operator operand).tokens =
        (path.tokens ++ operator.tokens) ++ [operand.token] := by
      simp [Filter.comparison, Filter.tokens]
    have hoperand : operand.token ≠ .symbol '=' := by cases operand <;> simp [Operand.token]
    rw [heq, htokens, append_append]
    exact reads_parts hc.wellFormed (readable_cons _ _) hoperand (reads_after hc s)
  | presence path isPresent =>
    refine reads_parts hf hs.readable hs.head_ne_equals ?_
    cases isPresent <;> exact Reads.pure _ s
  | entity kind =>
    have hafter : Reads (readAfter (.single .entityType) .equal) (s.cons (.quoted kind.name))
        (.direct (.entity kind)) s := by
      refine (reads_require _ (by decide) _).bind ((reads_text kind.name s).bind ?_)
      rw [EntityKind.ofName?_name]
      exact Reads.pure _ s
    exact reads_parts (PropertyPath.wellFormed_single rfl) (readable_cons _ _) (by simp) hafter
  | timeRange path first last =>
    have htokens : (Filter.timeRange path first last).tokens =
        (path.tokens ++ Comparator.inTimeRange.tokens) ++
          (Filter.boundTokens first ++ (.word "to" :: Filter.boundTokens last)) := by
      simp [Filter.tokens, Comparator.tokens, Comparator.symbol]
    rw [htokens, append_append]
    have hhead : (s.append (Filter.boundTokens first ++
        (.word "to" :: Filter.boundTokens last))).Readable ∧
        (s.append (Filter.boundTokens first ++
          (.word "to" :: Filter.boundTokens last))).head ≠ .symbol '=' := by
      cases first <;> simp only [Filter.boundTokens, List.cons_append, List.nil_append, append_cons]
        <;> exact ⟨readable_cons _ _, by simp⟩
    refine reads_parts hf.1 hhead.1 hhead.2 ?_
    exact (reads_timeRange hf hs).bind (Reads.pure _ s)

/-! ## Selections -/

/-- The name of a selection is read from its tokens. -/
theorem reads_equals {p : Property} {name : String} {c : Comparison} {s : TokenStream}
    (hp : p.isSub = false)
    (h : Reads (readAfter (.single p) .equal) (s.cons (.quoted name)) c s) :
    Reads readNext (s.append (Filter.equals (.single p) name).tokens) c s := by
  have htokens : (Filter.equals (.single p) name).tokens =
      ((PropertyPath.single p).tokens ++ Comparator.equal.tokens) ++ [.quoted name] := by
    simp [Filter.equals, Filter.comparison, Filter.tokens, Operand.token]
  rw [htokens, append_append]
  exact reads_parts (PropertyPath.wellFormed_single hp) (readable_cons _ _) (by simp) h

theorem reads_view (name : String) (s : TokenStream) :
    Reads readNext (s.append (Filter.equals (.single .view) name).tokens) (.views [name]) s :=
  reads_equals rfl ((reads_require _ (by decide) _).bind ((reads_words name s).bind
    (Reads.pure _ s)))

theorem reads_virtualPath (path : String) (s : TokenStream) :
    Reads readNext (s.append (Filter.equals (.single .vpath) path).tokens) (.virtualPaths [path])
      s :=
  reads_equals rfl ((reads_require _ (by decide) _).bind ((reads_words path s).bind
    (Reads.pure _ s)))

theorem reads_collectionPath (path : String) (s : TokenStream) :
    Reads readNext (s.append (Filter.inCollection path).tokens) (.collectionPaths [path]) s :=
  reads_equals rfl ((reads_require _ (by decide) _).bind ((reads_words path s).bind
    (Reads.pure _ s)))

/-! ## Lists -/

/-- A comparison with a list of words, as a text. -/
def wordsText (path : PropertyPath) (operator : Comparator) (words : List String) : String :=
  path.text ++ " " ++ operator.symbol ++ " (" ++ ", ".intercalate (words.map Text.quoted) ++ ")"

/-- A comparison with a list of virtual paths, as a text. -/
def virtualPathsText (paths : List String) : String :=
  "vpath = (" ++ ", ".intercalate (paths.map Text.quoted) ++ ")"

/-- The tokens of a list behind its first word. -/
def furtherTokens (words : List String) : List Token :=
  words.flatMap (fun word => [.symbol ',', .quoted word]) ++ [.symbol ')']

theorem furtherTokens_cons (word : String) (words : List String) :
    furtherTokens (word :: words) = .symbol ',' :: .quoted word :: furtherTokens words := by
  simp [furtherTokens]

theorem ofChars_words (word : String) (words : List String) (cs : List Char) :
    ofChars ((", ".intercalate ((word :: words).map Text.quoted)).toList ++ ')' :: cs) =
      ((ofChars cs).append (furtherTokens words)).cons (.quoted word) := by
  induction words generalizing word with
  | nil =>
    rw [List.map_cons, List.map_nil, String.intercalate_singleton, ofChars_quoted,
      ofChars_symbol (by decide)]
    rfl
  | cons next words ih =>
    have hchars : (", ".intercalate ((word :: next :: words).map Text.quoted)).toList ++ ')' :: cs =
        (Text.quoted word).toList ++ ',' :: ' ' ::
          ((", ".intercalate ((next :: words).map Text.quoted)).toList ++ ')' :: cs) := by
      simp only [List.map_cons, String.intercalate_cons_cons, String.toList_append]
      simp
    rw [hchars, ofChars_quoted, ofChars_symbol (by decide), ofChars_blank, ih, furtherTokens_cons]
    rfl

theorem reads_listItems (words : List String) (s : TokenStream) :
    Reads (many readListItem takes_readListItem) (s.append (furtherTokens words)) words s := by
  induction words with
  | nil =>
    refine Reads.many_none (Reads.next_bind fun x hx => ?_)
    simp only [hx]
    exact Reads.pure none s
  | cons word words ih =>
    rw [furtherTokens_cons, append_cons, append_cons]
    refine Reads.many_some (Reads.next_bind fun x hx => ?_) ih
    simp only [hx]
    have hword : Reads readFurtherWord ((s.append (furtherTokens words)).cons (.quoted word)) word
        (s.append (furtherTokens words)) := by
      refine Reads.next_bind fun y hy => ?_
      simp only [hy]
      exact Reads.pure word _
    exact hword.bind (Reads.pure (some word) _)

theorem reads_list (word : String) (words : List String) (s : TokenStream) :
    Reads readWords (((s.append (furtherTokens words)).cons (.quoted word)).cons (.symbol '('))
      (word :: words) s := by
  refine Reads.next_bind fun x hx => ?_
  simp only [hx]
  have hword : Reads readFirstWord ((s.append (furtherTokens words)).cons (.quoted word)) word
      (s.append (furtherTokens words)) := by
    refine Reads.next_bind fun y hy => ?_
    simp only [hy]
    exact Reads.pure word _
  exact hword.bind ((reads_listItems words s).bind (Reads.pure (word :: words) s))

/-- The tokens of a list of words. -/
def listTokens : List String → List Token
  | [] => [.symbol '(', .symbol ')']
  | word :: words => .symbol '(' :: .quoted word :: furtherTokens words

theorem readable_listTokens (words : List String) (s : TokenStream) :
    (s.append (listTokens words)).Readable ∧
      (s.append (listTokens words)).head = .symbol '(' := by
  obtain ⟨ts, hts⟩ : ∃ ts, listTokens words = .symbol '(' :: ts := by
    cases words <;> exact ⟨_, rfl⟩
  rw [hts, append_cons]
  exact ⟨readable_cons _ _, rfl⟩

/-- A list of words is read from its tokens. -/
theorem reads_listTokens {words : List String} (h : words ≠ []) (s : TokenStream) :
    Reads readWords (s.append (listTokens words)) words s := by
  obtain ⟨word, others, rfl⟩ := List.exists_cons_of_ne_nil h
  exact reads_list word others s

/-- What stands behind a list is left. -/
theorem ofChars_wordsText (path : PropertyPath) (operator : Comparator) {words : List String}
    (h : words ≠ []) (cs : List Char) : ofChars ((wordsText path operator words).toList ++ cs) =
      ((ofChars cs).append (listTokens words)).append (path.tokens ++ operator.tokens) := by
  obtain ⟨word, others, rfl⟩ := List.exists_cons_of_ne_nil h
  have hchars : (wordsText path operator (word :: others)).toList ++ cs =
      path.text.toList ++ ' ' :: (operator.symbol.toList ++ ' ' ::
        '(' :: ((", ".intercalate ((word :: others).map Text.quoted)).toList ++ ')' :: cs)) := by
    simp [wordsText]
  rw [hchars, ofChars_path _ (bounded_blank _), ofChars_blank,
    ofChars_comparator _ (bounded_blank _), ofChars_blank, ofChars_symbol (by decide),
    ofChars_words, ← append_append]
  rfl

theorem ofString_wordsText (path : PropertyPath) (operator : Comparator) {words : List String}
    (h : words ≠ []) : ofString (wordsText path operator words) =
      (done.append (listTokens words)).append (path.tokens ++ operator.tokens) := by
  have hchars := ofChars_wordsText path operator h []
  rwa [List.append_nil, ofChars_nil] at hchars

/-- A list of virtual paths is read from its text. -/
theorem reads_virtualPaths {paths : List String} (h : paths ≠ []) :
    Reads readNext (ofString (virtualPathsText paths)) (.virtualPaths paths) .done := by
  have htext : virtualPathsText paths = wordsText (.single .vpath) .equal paths := by
    have hpath : (PropertyPath.single .vpath).text ++ " " ++ Comparator.equal.symbol ++ " (" =
        "vpath = (" := by decide
    rw [wordsText, hpath]
    rfl
  obtain ⟨hreadable, hhead⟩ := readable_listTokens paths .done
  rw [htext, ofString_wordsText _ _ h]
  refine reads_parts (PropertyPath.wellFormed_single rfl) hreadable (by simp [hhead]) ?_
  exact (reads_require _ (by decide) _).bind ((reads_listTokens h _).bind (Reads.pure _ _))

end Comparison

namespace Selection

open Compilation

/-- A leaf compiles to itself, and memos do not matter. -/
theorem outcome_compile_leaf (s : Selection) {f : Filter} (hf : f.RestorableLeaf s.hierarchy)
    (m : Memos) : (s.compile f.toComparison).outcome m = (.ok f, m) := by
  cases f with
  | and name children => exact hf.elim
  | or children => exact hf.elim
  | view name filter => exact hf.elim
  | presence path isPresent => rfl
  | entity kind => rfl
  | timeRange path first last => rfl
  | compare path operator operand exact negate caseless isPrefix =>
    obtain ⟨hc, heq⟩ := hf
    rw [heq]
    by_cases hfirst : path.first = .categories
    · obtain ⟨-, text, rfl, hpath⟩ := hc.of_categories hfirst
      by_cases huid : path.isExactly [.categories, .uid] = true
      · obtain ⟨category, hcategory⟩ : ∃ category,
            s.hierarchy.categoryWithUid text = .ok (some category) := by
          rcases hpath with hhref | ⟨-, h⟩
          · simp only [PropertyPath.isExactly, beq_iff_eq] at huid hhref
            rw [huid] at hhref
            cases hhref
          · exact h
        have hone : (s.categoryByUid path operator text).outcome m =
            (.ok (.comparison path operator (.text text)), m) := by
          simp [categoryByUid, hcategory, Compilation.ofLookup]
        rw [Filter.comparison, Filter.toComparison, if_pos huid, compile]
        simp only [List.mapM_cons, List.mapM_nil, bind_assoc]
        rw [outcome_bind_of_ok hone]
        rfl
      · rw [Filter.comparison, Filter.toComparison, if_neg huid]
        rfl
    · rw [Comparison.toComparison_of_ne operator operand hfirst]
      rfl

end Selection

end CalendarQuery

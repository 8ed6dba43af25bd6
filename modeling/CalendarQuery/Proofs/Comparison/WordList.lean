import CalendarQuery.Proofs.Comparison.Plain
import CalendarQuery.Proofs.Comparison.Written
import CalendarQuery.Proofs.Selection.Resolve

/-!
# Comparisons with a list of words

A comparison with a list of words stands for the comparisons with each of them. None of these gives
an unnamed group of its own that the group of the list would take up, and so the list is the group
of what its words give.

* `Comparison.Heads`: tokens that are read as a path and an operator, however these are spelled.
* `Comparison.TakesWords`: the paths and operators behind which a list may stand.
* `Comparison.ofWords`: what such a list is read as. `Heads.reads` says so.
* `Selection.compile_ofWords`: a list compiles as its words do.
* `Selection.not_isGroupOf_word`: what a single word gives.
-/

namespace CalendarQuery

open Reader

namespace Comparison

/-! ## Reading lists -/

/-- The path and the operator of a comparison. -/
def readHead : Reader (PropertyPath × Comparator) := do
  let first ← next
  let path ← PropertyPath.read first
  let operator ← Comparator.read
  return (path, operator)

theorem readNext_eq : readNext = readHead >>= fun head => readAfter head.1 head.2 := by
  simp only [readNext, read, readHead, bind_assoc, pure_bind]

/-- Tokens that are read as a path and an operator, if no equals sign follows that could belong to
the operator. -/
def Heads (head : List Token) (path : PropertyPath) (operator : Comparator) : Prop :=
  ∀ s : TokenStream, s.Readable → s.head ≠ .symbol '=' →
    Reads readHead (s.append head) (path, operator) s

/-- A path and an operator as they are written. -/
theorem heads_tokens {path : PropertyPath} (h : path.WellFormed) (operator : Comparator) :
    Heads (path.tokens ++ operator.tokens) path operator := by
  intro s hs he
  rw [TokenStream.append_append, PropertyPath.tokens, TokenStream.append_cons]
  refine Reads.next_bind fun x hx => ?_
  refine (PropertyPath.reads_further h (operator.ends_tokens s) hx).bind ?_
  exact (operator.reads_tokens hs he).bind (Reads.pure _ s)

/-- The word for the uid of a category, in whatever letter case. -/
theorem heads_categoryUidWord {word : String}
    (h : Text.sameName word Property.categoryUidWord = true) (operator : Comparator) :
    Heads (.word word :: operator.tokens) (.pair .categories .uid) operator := by
  intro s hs he
  rw [TokenStream.append_cons]
  refine Reads.next_bind fun x hx => ?_
  have hpath : Reads (PropertyPath.read x) (s.append operator.tokens) (.pair .categories .uid)
      (s.append operator.tokens) := by
    obtain ⟨hreadable, hdot, -⟩ := operator.ends_tokens s
    simp only [PropertyPath.read, hx, h, if_true]
    refine Reads.peek_bind hreadable fun y hy => ?_
    rw [if_neg (by simp [hy, hdot, Token.isSymbol])]
    exact Reads.pure _ _
  exact hpath.bind ((operator.reads_tokens hs he).bind (Reads.pure _ s))

/-- Views, virtual paths and collection paths take a list behind an equals sign; so do uids and hrefs
of categories, and behind the sign for their difference as well. -/
def TakesWords (path : PropertyPath) (operator : Comparator) : Prop :=
  (path.first ∈ [.view, .vpath, .collection] ∧ operator = .equal) ∨
    ((path.isExactly [.categories, .uid] = true ∨ path.isExactly [.categories, .href] = true) ∧
      operator ∈ [.equal, .notEqual])

/-- What a list of words is read as. -/
def ofWords (path : PropertyPath) (operator : Comparator) : List String → Comparison :=
  match path.first with
  | .view => .views
  | .vpath => .virtualPaths
  | .collection => .collectionPaths
  | _ =>
    if path.isExactly [.categories, .uid] then .categoryUids path operator
    else fun words =>
      .direct (Filter.merged .and (words.map fun word => .comparison path operator (.text word)))

theorem ofWords_cases (path : PropertyPath) (operator : Comparator) :
    (ofWords path operator = .views ∨ ofWords path operator = .virtualPaths ∨
      ofWords path operator = .collectionPaths) ∨
    ofWords path operator = .categoryUids path operator ∨
    ofWords path operator = fun words => .direct (Filter.merged .and
      (words.map fun word => .comparison path operator (.text word))) := by
  unfold ofWords
  split
  · exact .inl (.inl rfl)
  · exact .inl (.inr (.inl rfl))
  · exact .inl (.inr (.inr rfl))
  · split
    · exact .inr (.inl rfl)
    · exact .inr (.inr rfl)

theorem eachWord_eq_merged (path : PropertyPath) (operator : Comparator) {words : List String}
    (h : words ≠ []) : eachWord path operator words =
      .ok (Filter.merged .and (words.map fun word => .comparison path operator (.text word))) := by
  rw [eachWord, Filter.all?, Filter.combine_eq_merged .and (by simpa using h)]

variable {path : PropertyPath} {operator : Comparator} {words : List String}
  {s s' : TokenStream}

theorem reads_ofWords (h : TakesWords path operator) (hne : words ≠ [])
    (hwords : Reads readWords s words s') :
    Reads (readAfter path operator) s (ofWords path operator words) s' := by
  obtain ⟨hfirst, rfl⟩ | ⟨hpath, hop⟩ := h
  · simp only [List.mem_cons, List.not_mem_nil, or_false] at hfirst
    rcases hfirst with hfirst | hfirst | hfirst <;> simp only [readAfter, ofWords, hfirst] <;>
      exact (reads_require path (by decide) _).bind (hwords.bind (Reads.pure _ _))
  · have hfirst : path.first = .categories := by
      simp only [PropertyPath.isExactly, PropertyPath.segments, List.map_cons, beq_iff_eq] at hpath
      rcases hpath with h | h <;> exact (List.cons.inj h).1
    have hcategories : Reads (readCategories path operator) s (ofWords path operator words) s' := by
      refine (reads_require path hop _).bind ?_
      simp only [ofWords, hfirst]
      by_cases huid : path.isExactly [.categories, .uid] = true
      · rw [if_pos huid, if_pos huid]
        exact hwords.bind (Reads.pure _ _)
      · rw [if_neg huid, if_neg huid, if_pos (hpath.resolve_left huid)]
        refine hwords.bind ?_
        rw [eachWord_eq_merged path operator hne]
        exact Reads.pure _ _
    simp only [List.mem_cons, List.not_mem_nil, or_false] at hop
    rcases hop with rfl | rfl <;> simpa only [readAfter, hfirst] using hcategories

/-- A path and an operator in whatever spelling, and the words behind them. -/
theorem Heads.reads {head : List Token} (h : Heads head path operator)
    (htakes : TakesWords path operator) (hne : words ≠ []) (hs : s.Readable)
    (he : s.head ≠ .symbol '=') (hwords : Reads readWords s words s') :
    Reads readNext (s.append head) (ofWords path operator words) s' := by
  rw [readNext_eq]
  exact (h s hs he).bind (reads_ofWords htakes hne hwords)

end Comparison

/-! ## Compiling lists -/

namespace Filter

/-- A single filter is merged as it is; several that are no groups of the operator become one. -/
theorem merged_eq_iff {op : LogicalOp} {fs : List Filter} {f : Filter} (hne : fs ≠ [])
    (h : ∀ g ∈ fs, ¬g.IsGroupOf op) : merged op fs = f ↔
      (fs.length = 1 → fs = [f]) ∧ (1 < fs.length → f = group op fs) := by
  match fs with
  | [] => exact absurd rfl hne
  | [g] => simp [merged]
  | g :: k :: fs =>
    rw [merged_eq_group (by simp) h]
    simp [eq_comm]

/-- An alternative of filters is an unnamed conjunction only if one of them is. -/
theorem not_isGroupOf_merged_or {fs : List Filter} (h : ∀ f ∈ fs, ¬f.IsGroupOf .and) :
    ¬(merged .or fs).IsGroupOf .and := by
  match fs with
  | [] => rintro ⟨children, ⟨⟩⟩
  | [f] => exact h f List.mem_cons_self
  | f :: g :: fs => rintro ⟨children, ⟨⟩⟩

theorem not_isGroupOf_narrowed {name : String} {own : Option Filter} {f : Filter}
    (h : ¬f.IsGroupOf .and) : ¬(Selection.narrowed name own f).IsGroupOf .and := by
  cases own with
  | none => exact h
  | some g => rintro ⟨children, ⟨⟩⟩

end Filter

namespace Selection

open Compilation

variable {s : Selection} {m m' : Memos} {f : Filter} {narrow : Bool} {fresh : List String}

/-- What is known of what single collections expand to is known of what several do. -/
theorem forall_of_expandEach {P : Filter → Prop}
    (h : ∀ {c : Collection} {f : Filter} {m m' : Memos},
      (s.expand narrow fresh c).outcome m = (.ok (some f), m') → P f)
    {cs : List Collection} {fs : List Filter}
    (hfs : (s.expandEach narrow fresh cs).outcome m = (.ok fs, m')) : ∀ f ∈ fs, P f := by
  rw [expandEach_eq_mapM] at hfs
  obtain ⟨os, hos, rfl⟩ := map_eq_ok.mp hfs
  have heach : ∀ o ∈ os, ∀ f, o = some f → P f :=
    forall_of_mapM (fun ho f hf => h (hf ▸ ho)) hos
  intro f hf
  obtain ⟨o, ho, rfl⟩ := List.mem_filterMap.mp hf
  exact heach _ ho f rfl

/-- A collection expands to no unnamed conjunction: a filter attached to an alias is conjoined under
the name of the alias. The induction is on the paths that may still be entered. -/
theorem not_isGroupOf_expand {c : Collection}
    (h : (s.expand narrow fresh c).outcome m = (.ok (some f), m')) : ¬f.IsGroupOf .and := by
  induction hn : fresh.length using Nat.strongRecOn generalizing fresh c f m m' with
  | ind n ih =>
    subst hn
    have hself : ¬(Filter.inCollection c.path).IsGroupOf .and := by rintro ⟨children, ⟨⟩⟩
    by_cases hm : c.path ∈ fresh
    · have ih' : ∀ {d : Collection} {g : Filter} {m m' : Memos},
          (s.expand narrow (Hierarchy.without fresh c.path) d).outcome m = (.ok (some g), m') →
          ¬g.IsGroupOf .and := fun hd => ih _ (Hierarchy.length_without_lt hm) hd rfl
      cases hk : c.kind with
      | calendar =>
        rw [expand_calendar hm hk] at h
        obtain ⟨h, -⟩ := Compilation.pure_eq_ok.mp h
        obtain rfl := Option.some.inj h
        exact hself
      | folder =>
        obtain ⟨children, fs, -, hfs, h⟩ := (expand_folder_eq_ok hm hk).mp h
        obtain rfl := Option.some.inj h
        by_cases hnil : fs = []
        · rw [hnil]
          exact hself
        · rw [Filter.any?, Filter.combine_eq_merged .or hnil]
          exact Filter.not_isGroupOf_merged_or (forall_of_expandEach ih' hfs)
      | link =>
        obtain ⟨own, m₁, -, ⟨h, -⟩ | ⟨path, d, inner, -, -, hinner, h⟩⟩ :=
          (expand_link_eq_ok hm hk).mp h
        · cases h
        · obtain ⟨g, rfl, rfl⟩ := Option.map_eq_some_iff.mp h.symm
          exact Filter.not_isGroupOf_narrowed (ih' hinner)
    · rw [expand_cycle hm] at h
      cases h

/-- A path gives a conjunction only under the name of a collection. -/
theorem not_isGroupOf_resolve {path : String}
    (h : (s.resolve path narrow).outcome m = (.ok f, m')) : ¬f.IsGroupOf .and := by
  unfold resolve at h
  split at h
  · cases h
  obtain ⟨steps, m₁, -, h⟩ := bind_eq_ok.mp h
  obtain ⟨⟨filters, found⟩, m₂, -, h⟩ := bind_eq_ok.mp h
  cases found with
  | none => cases h
  | some target =>
    obtain ⟨o, m₃, hexpand, h⟩ := bind_eq_ok.mp h
    cases o with
    | none => cases h
    | some inner =>
      cases narrow with
      | true =>
        obtain ⟨rfl, -⟩ := Compilation.pure_eq_ok.mp h
        rintro ⟨children, ⟨⟩⟩
      | false =>
        obtain ⟨rfl, -⟩ := Compilation.pure_eq_ok.mp h
        exact not_isGroupOf_expand hexpand

theorem together_mapM {words : List String} (hne : words ≠ [])
    (select : String → Compilation Filter) :
    (do together (← words.mapM select)) = Filter.merged .and <$> words.mapM select := by
  refine Compilation.ext fun m => ?_
  rw [outcome_map]
  rcases hr : (words.mapM select).outcome m with ⟨cause | fs, m'⟩
  · rw [outcome_bind_of_error hr]
    rfl
  · have hfs : fs ≠ [] := by
      rw [← List.length_pos_iff, length_of_mapM hr, List.length_pos_iff]
      exact hne
    rw [outcome_bind_of_ok hr, together, Filter.all?, Filter.combine_eq_merged .and hfs]
    rfl

variable {path : PropertyPath} {operator : Comparator}

/-- A list compiles as its words do, one after the other. -/
theorem compile_ofWords {words : List String} (hne : words ≠ []) :
    s.compile (.ofWords path operator words) = Filter.merged .and <$>
      words.mapM fun word => s.compile (.ofWords path operator [word]) := by
  obtain (h | h | h) | h | h := Comparison.ofWords_cases path operator <;> rw [h]
  · simp only [compile_view]
    exact together_mapM hne s.viewFilter
  · simp only [compile_virtualPath]
    exact together_mapM hne s.virtualPath
  · simp only [compile_collectionPath]
    exact together_mapM hne s.collectionPath
  · have hsingle : (fun uid => s.compile (.categoryUids path operator [uid])) =
        s.categoryByUid path operator := funext (together_single _)
    rw [hsingle]
    exact together_mapM hne _
  · simp only [compile, List.mapM_pure, map_pure]
    rfl

/-- A single word gives no unnamed conjunction. -/
theorem not_isGroupOf_word {word : String}
    (h : (s.compile (.ofWords path operator [word])).outcome m = (.ok f, m')) :
    ¬f.IsGroupOf .and := by
  obtain (hwords | hwords | hwords) | hwords | hwords := Comparison.ofWords_cases path operator <;>
    rw [hwords] at h
  · rw [compile_view] at h
    obtain ⟨view, inner, -, rfl, -⟩ := viewFilter_eq_ok h
    rintro ⟨children, ⟨⟩⟩
  · rw [compile_virtualPath] at h
    exact not_isGroupOf_resolve h
  · rw [compile_collectionPath] at h
    exact not_isGroupOf_resolve h
  · have hsingle : s.compile (.categoryUids path operator [word]) =
        s.categoryByUid path operator word := together_single _ word
    rw [hsingle] at h
    obtain ⟨rfl, -⟩ := categoryByUid_eq_ok h
    rintro ⟨children, ⟨⟩⟩
  · obtain ⟨rfl, -⟩ := Compilation.pure_eq_ok.mp h
    rintro ⟨children, ⟨⟩⟩

end Selection

end CalendarQuery

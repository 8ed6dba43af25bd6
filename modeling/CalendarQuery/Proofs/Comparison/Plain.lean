import CalendarQuery.Proofs.Comparison.Reading
import CalendarQuery.Proofs.Filter.Plain
import CalendarQuery.Proofs.Selection.Memos

/-!
# Comparisons that give plain filters

A comparison whose filter is plain asks for no collection: it needs no lookup, or it is one of
categories. Its filter is well formed, its text can be read, and where it is a group it comes from a
list of several words.

* `Filter.Legible`: what holds at each place of a filter whose text can be read.
* `Comparison.Literal`: what is known of a comparison that has been read, by
  `literal_of_readNext`.
* `Comparison.brackets`: the parentheses that the text of its filter needs inside a group.
* `Selection.compile_plain`: what is known of the filter of a comparison if it is plain.
-/

namespace CalendarQuery

open Reader

namespace Filter

/-- What holds at one place of a filter whose text can be read where the uids in `known` are those
of categories: no views, and operands only of properties that are compared with values. Categories
are compared by an href, or by the uid of one that is known. -/
def Legible (known : String → Prop) : Filter → Prop
  | .compare path operator operand _ _ _ _ =>
    path.first ∉ [.entityType, .view, .vpath, .collection] ∧
      (path.first = .categories → operator ∈ [.equal, .notEqual] ∧ ∃ text, operand = .text text ∧
        (path.isExactly [.categories, .href] = true ∨
          path.isExactly [.categories, .uid] = true ∧ known text))
  | .view .. => False
  | _ => True

theorem legible_group (known : String → Prop) (op : LogicalOp) (fs : List Filter) :
    (group op fs).Legible known := by
  cases op <;> trivial

theorem Legible.mono {known known' : String → Prop} (h : ∀ uid, known uid → known' uid) {f : Filter}
    (hf : f.Legible known) : f.Legible known' := by
  cases f with
  | compare path operator operand exact negate caseless isPrefix =>
    refine ⟨hf.1, fun hcategories => ?_⟩
    obtain ⟨hop, text, hoperand, hpath⟩ := hf.2 hcategories
    exact ⟨hop, text, hoperand, hpath.imp_right (And.imp_right (h text))⟩
  | view name filter => exact hf.elim
  | _ => trivial

/-- Categories that are compared by exactly two properties. -/
theorem legible_categories {known : String → Prop} {path : PropertyPath} {operator : Comparator}
    {text : String} (hop : operator ∈ [Comparator.equal, .notEqual])
    (hpath : path.isExactly [.categories, .href] = true ∨
      path.isExactly [.categories, .uid] = true ∧ known text) :
    (comparison path operator (.text text)).Legible known := by
  have hfirst : path.first = .categories := by
    simp only [PropertyPath.isExactly, PropertyPath.segments, List.map_cons, beq_iff_eq] at hpath
    rcases hpath with h | ⟨h, -⟩ <;> exact (List.cons.inj h).1
  exact ⟨by simp [hfirst], fun _ => ⟨hop, text, rfl, hpath⟩⟩

/-- Leaves need parentheses inside a group only if there are several of them. -/
theorem enclosing_merged_of_leaves (op : LogicalOp) {fs : List Filter} (hne : fs ≠ [])
    (h : ∀ f ∈ fs, f.isGroup = false) :
    enclosing [merged op fs] ≤ if 1 < fs.length then 1 else 0 := by
  have hleaf : ∀ f ∈ fs, enclosing [f] ≤ 0 := fun f hf => by simp [enclosing_singleton, h f hf]
  match fs with
  | [] => exact absurd rfl hne
  | [f] => exact hleaf f List.mem_cons_self
  | f :: g :: fs =>
    have hinner : (merged op (f :: g :: fs)).parentheses ≤ 0 :=
      Nat.le_trans (parentheses_merged_le op _) (enclosing_le_iff.mpr hleaf)
    have hlength : 1 < (f :: g :: fs).length := by simp
    rw [enclosing_singleton, if_pos hlength]
    split <;> omega

end Filter

/-! ## What has been read -/

namespace Comparison

/-- What is known of a comparison from its form: without a lookup it is a filter that can be read,
written without parentheses. -/
def Literal : Comparison → Prop
  | .direct f => f.parentheses = 0 ∧ ∀ known, f.Everywhere (Filter.Legible known)
  | .categoryUids path _ _ => path.isExactly [.categories, .uid] = true
  | _ => True

theorem literal_leaf {f : Filter} (hf : f.subtrees = [f]) (hparentheses : f.parentheses = 0)
    (h : ∀ known, f.Legible known) : (direct f).Literal :=
  ⟨hparentheses, fun known => (Filter.everywhere_leaf hf).mpr (h known)⟩

/-- A list of words is a group of comparisons with each of them. -/
theorem eachWord_eq_ok {path : PropertyPath} {operator : Comparator} {words : List String}
    {f : Filter} (h : eachWord path operator words = .ok f) :
    Filter.merged .and (words.map fun word => .comparison path operator (.text word)) = f := by
  unfold eachWord at h
  split at h
  · rename_i g hg
    cases h
    have hne : words.map (fun word => Filter.comparison path operator (.text word)) ≠ [] := by
      intro hnil
      rw [hnil] at hg
      cases hg
    rw [Filter.all?, Filter.combine_eq_merged .and hne] at hg
    exact Option.some.inj hg
  · cases h

/-- A list of hrefs as a group. -/
theorem literal_eachWord {path : PropertyPath} {operator : Comparator} {words : List String}
    {f : Filter} (hop : operator ∈ [Comparator.equal, .notEqual])
    (hpath : path.isExactly [.categories, .href] = true)
    (hf : eachWord path operator words = .ok f) : (direct f).Literal := by
  obtain rfl := eachWord_eq_ok hf
  constructor
  · refine Nat.le_zero.mp (Nat.le_trans (Filter.parentheses_merged_le .and _) ?_)
    refine Filter.enclosing_le_iff.mpr (List.forall_mem_map.mpr fun word _ => ?_)
    exact Nat.le_refl _
  · intro known
    refine (Filter.everywhere_merged (Filter.legible_group known) .and _).mpr ?_
    refine List.forall_mem_map.mpr fun word _ => (Filter.everywhere_leaf rfl).mpr ?_
    exact Filter.legible_categories hop (.inl hpath)

variable {K : Reading}

theorem literal_readTimeRange (hK : K.Lawful) (path : PropertyPath) :
    Obeys K (fun f => (direct f).Literal) (readTimeRange path) :=
  (obeys_readBound hK).bind fun first _ => (Obeys.next hK).bind fun x hx => by
    split
    · refine (obeys_readBound hK).bind fun last _ => ?_
      split
      · exact Obeys.fail (hK.placeless rfl)
      · exact Obeys.pure (literal_leaf (f := .timeRange path first last) rfl rfl fun _ => trivial)
    · exact Obeys.fail (hK.unexpected _ hx)

theorem literal_readCategories (hK : K.Lawful) (path : PropertyPath) (operator : Comparator) :
    Obeys K Literal (readCategories path operator) := by
  refine (obeys_require hK _ _ _).bind fun _ hop => ?_
  split
  · rename_i huid
    exact (obeys_readWords hK).bind fun _ _ => Obeys.pure huid
  · split
    · rename_i hhref
      refine (obeys_readWords hK).bind fun words _ => ?_
      split
      · rename_i hf
        exact Obeys.pure (literal_eachWord hop hhref hf)
      · rename_i hcause
        exact Obeys.fail (hK.placeless (isPlaceless_of_eachWord hcause))
    · split
      · exact Obeys.fail (hK.placeless rfl)
      · refine (obeys_readText hK).bind fun name _ => ?_
        split
        · exact Obeys.pure (literal_leaf rfl rfl fun _ =>
            Filter.legible_categories hop (.inl (by decide)))
        · exact Obeys.pure trivial

theorem eq_of_ofOperand {path : PropertyPath} {operator : Comparator} {operand : Operand}
    {f : Filter} (h : ofOperand path operator operand = .ok f) :
    .comparison path operator operand = f := by
  unfold ofOperand at h
  split at h
  · cases h
  · split at h
    · cases h
    · exact Except.ok.inj h
  · exact Except.ok.inj h

theorem literal_readAfter (hK : K.Lawful) (path : PropertyPath) (operator : Comparator) :
    Obeys K Literal (readAfter path operator) := by
  unfold readAfter
  split
  · exact Obeys.pure (literal_leaf rfl rfl fun _ => trivial)
  · exact Obeys.pure (literal_leaf rfl rfl fun _ => trivial)
  · exact (literal_readTimeRange hK path).bind fun f hf => Obeys.pure hf
  · refine (obeys_require hK _ _ _).bind fun _ _ => (obeys_readText hK).bind fun name _ => ?_
    split
    · exact Obeys.pure (literal_leaf rfl rfl fun _ => trivial)
    · exact Obeys.fail (hK.placeless rfl)
  · exact (obeys_require hK _ _ _).bind fun _ _ => (obeys_readWords hK).bind fun _ _ =>
      Obeys.pure trivial
  · exact (obeys_require hK _ _ _).bind fun _ _ => (obeys_readWords hK).bind fun _ _ =>
      Obeys.pure trivial
  · exact (obeys_require hK _ _ _).bind fun _ _ => (obeys_readWords hK).bind fun _ _ =>
      Obeys.pure trivial
  · exact literal_readCategories hK path _
  · rename_i hentity hview hvpath hcollection hcategories
    refine (obeys_readOperand hK).bind fun operand _ => ?_
    split
    · rename_i hf
      obtain rfl := eq_of_ofOperand hf
      have hfirst : path.first ∉ [.entityType, .view, .vpath, .collection] := by
        simp only [List.mem_cons, List.not_mem_nil, or_false, not_or]
        exact ⟨hentity, hview, hvpath, hcollection⟩
      exact Obeys.pure (literal_leaf rfl rfl fun _ => ⟨hfirst, fun h => absurd h hcategories⟩)
    · rename_i hcause
      exact Obeys.fail (hK.placeless (isPlaceless_of_ofOperand hcause))

/-- Every comparison that is read is literal and admissible. -/
theorem literal_of_readNext {l l' : Lexer} {c : Comparison} (h : readNext l = .ok (c, l'))
    (hl : (Reading.quoting fun _ => True).lexer l) : c.Literal ∧ c.Admissible fun _ => True := by
  have hK := Reading.lawful_quoting fun _ => True
  have hread : Obeys (Reading.quoting fun _ => True) Literal readNext :=
    (Obeys.next hK).bind fun x hx => (PropertyPath.obeys_read hK hx).bind fun _ _ =>
      (Comparator.obeys_read hK).bind fun _ _ => literal_readAfter hK _ _
  have hadmissible : Obeys (Reading.quoting fun _ => True)
      (Admissible (Reading.quoting fun _ => True).Word) readNext :=
    (Obeys.next hK).bind fun x hx => obeys_read hK hx
  exact ⟨((hread l hl).1 c l' h).1, ((hadmissible l hl).1 c l' h).1.mono fun _ _ => trivial⟩

/-- The parentheses that the filter of a comparison is written with inside a group: a list of
several words becomes a group of its own. -/
def brackets : Comparison → Nat
  | .direct f => if f.isGroup then 1 else 0
  | .views words | .virtualPaths words | .collectionPaths words | .categoryUids _ _ words =>
    if 1 < words.length then 1 else 0
  | .categoryName .. => 0

theorem brackets_le (c : Comparison) : c.brackets ≤ 1 := by
  unfold brackets
  split
  all_goals first | (split <;> decide) | decide

end Comparison

/-! ## Filters of comparisons -/

namespace Compilation

/-- What is known of each success is known of every one of them. -/
theorem forall_of_mapM {α β : Type} {P : β → Prop} {f : α → Compilation β}
    (hf : ∀ {a b m m'}, (f a).outcome m = (.ok b, m') → P b) {as : List α} {bs : List β}
    {m m' : Memos} (h : (as.mapM f).outcome m = (.ok bs, m')) : ∀ b ∈ bs, P b := by
  induction as generalizing bs m m' with
  | nil =>
    rw [List.mapM_nil] at h
    obtain ⟨rfl, -⟩ := Compilation.pure_eq_ok.mp h
    simp
  | cons a as ih =>
    rw [List.mapM_cons] at h
    obtain ⟨b, m₁, h₁, h⟩ := bind_eq_ok.mp h
    obtain ⟨others, m₂, h₂, h₃⟩ := bind_eq_ok.mp h
    obtain ⟨rfl, -⟩ := Compilation.pure_eq_ok.mp h₃
    exact List.forall_mem_cons.mpr ⟨hf h₁, ih h₂⟩

end Compilation

namespace Filter

mutual

/-- A plain filter selects no collection. -/
theorem guarded_of_plain (f : Filter) (hf : f.Plain) : f.guarded = [] := by
  cases f with
  | and name children => exact guardedLast_of_plain children (everywhere_and.mp hf).2
  | or children => exact guardedEach_of_plain children (everywhere_or.mp hf).2
  | compare path operator operand exact negate caseless isPrefix =>
    have hfirst : path.first ≠ .collection := hf.self
    have hpath : path ≠ .single .collection := fun h => hfirst (by rw [h]; rfl)
    cases operand with
    | text value => rw [guarded, if_neg hpath]
    | number n => rfl
  | presence path isPresent => rfl
  | entity kind => rfl
  | timeRange path first last => rfl
  | view name filter => rfl

theorem guardedLast_of_plain (fs : List Filter) (hfs : ∀ f ∈ fs, f.Plain) :
    guardedLast fs = [] := by
  match fs with
  | [] => rfl
  | [f] => exact guarded_of_plain f (hfs f List.mem_cons_self)
  | guard :: f :: fs =>
    rw [guardedLast, guardedLast_of_plain (f :: fs) (List.forall_mem_cons.mp hfs).2, List.map_nil]

theorem guardedEach_of_plain (fs : List Filter) (hfs : ∀ f ∈ fs, f.Plain) :
    guardedEach fs = [] := by
  cases fs with
  | nil => rfl
  | cons f fs =>
    obtain ⟨hf, hfs⟩ := List.forall_mem_cons.mp hfs
    rw [guardedEach, guarded_of_plain f hf, guardedEach_of_plain fs hfs, List.nil_append]

end

end Filter

/-- The uids in `known` are those of the categories that the hierarchy can answer with. -/
structure Hierarchy.Knows (h : Hierarchy) (known : String → Prop) : Prop where
  withUid : ∀ {uid : String} {category : Category},
    h.categoryWithUid uid = .ok (some category) → known uid
  named : ∀ {name : String} {category : Category},
    h.categoryNamed name = .ok (some category) → known category.uid

namespace Selection

open Compilation

variable {s : Selection} {m m' : Memos} {f : Filter}

/-- A path, virtual or not, selects collections. -/
theorem not_plain_resolve {vpath : String} {narrow : Bool}
    (h : (s.resolve vpath narrow).outcome m = (.ok f, m')) : ¬f.Plain := by
  intro hplain
  unfold resolve at h
  split at h
  · cases h
  obtain ⟨steps, m₁, -, h⟩ := bind_eq_ok.mp h
  obtain ⟨⟨filters, found⟩, m₂, -, h⟩ := bind_eq_ok.mp h
  cases found with
  | none => cases h
  | some target =>
    obtain ⟨o, m₃, hexpand, h⟩ := bind_eq_ok.mp h
    cases o with
    | none => cases h
    | some inner =>
      obtain ⟨t, -, -, -, hnone, hleaves⟩ := expand_sound s narrow _ hexpand
      cases narrow with
      | true =>
        obtain ⟨rfl, -⟩ := Compilation.pure_eq_ok.mp h
        exact hplain.self
      | false =>
        obtain ⟨rfl, -⟩ := Compilation.pure_eq_ok.mp h
        rw [Option.toList_some, List.flatMap_singleton, Filter.guarded_of_plain _ hplain] at hleaves
        have hroutes : t.routes = [] := List.map_eq_nil_iff.mp hleaves.symm
        cases hnone.mpr hroutes

theorem together_eq_ok {fs : List Filter} (h : (together fs).outcome m = (.ok f, m')) :
    fs ≠ [] ∧ Filter.merged .and fs = f := by
  have hne : fs ≠ [] := by
    rintro rfl
    cases h
  rw [together, Filter.all?, Filter.combine_eq_merged .and hne] at h
  exact ⟨hne, (Compilation.pure_eq_ok.mp h).1⟩

/-- Members that are not plain make a filter that is not. -/
theorem not_plain_together {select : String → Compilation Filter} {words : List String}
    (hselect : ∀ {word g m m'}, (select word).outcome m = (.ok g, m') → ¬g.Plain)
    (h : outcome (do together (← words.mapM select)) m = (.ok f, m')) : ¬f.Plain := by
  obtain ⟨fs, m₁, hfs, h⟩ := bind_eq_ok.mp h
  obtain ⟨hne, rfl⟩ := together_eq_ok h
  obtain ⟨g, gs, rfl⟩ := List.exists_cons_of_ne_nil hne
  intro hplain
  exact forall_of_mapM hselect hfs g List.mem_cons_self
    (Filter.plain_merged.mp hplain g List.mem_cons_self)

theorem categoryByUid_eq_ok {path : PropertyPath} {operator : Comparator} {uid : String}
    (h : (s.categoryByUid path operator uid).outcome m = (.ok f, m')) :
    .comparison path operator (.text uid) = f ∧
      ∃ category, s.hierarchy.categoryWithUid uid = .ok (some category) := by
  obtain ⟨found, m₁, h₁, h⟩ := bind_eq_ok.mp h
  obtain ⟨hfound, -⟩ := ofLookup_eq_ok.mp h₁
  cases found with
  | none => cases h
  | some category => exact ⟨(Compilation.pure_eq_ok.mp h).1, category, hfound⟩

theorem categoryByName_eq_ok {operator : Comparator} {name : String}
    (h : (s.categoryByName operator name).outcome m = (.ok f, m')) :
    ∃ category, s.hierarchy.categoryNamed name = .ok (some category) ∧
      .comparison (.pair .categories .uid) operator (.text category.uid) = f := by
  obtain ⟨found, m₁, h₁, h⟩ := bind_eq_ok.mp h
  obtain ⟨hfound, -⟩ := ofLookup_eq_ok.mp h₁
  cases found with
  | none => cases h
  | some category => exact ⟨category, hfound, (Compilation.pure_eq_ok.mp h).1⟩

/-- What is known of the filter of a comparison if it is plain. -/
theorem compile_plain {known : String → Prop} (hknown : s.hierarchy.Knows known) {c : Comparison}
    (hliteral : c.Literal) (hadmissible : c.Admissible fun _ => True)
    (h : (s.compile c).outcome m = (.ok f, m')) (hplain : f.Plain) :
    f.WellFormed ∧ f.Everywhere (Filter.Legible known) ∧ Filter.enclosing [f] ≤ c.brackets := by
  cases c with
  | direct g =>
    obtain ⟨rfl, -⟩ := Compilation.pure_eq_ok.mp h
    refine ⟨hadmissible, hliteral.2 known, ?_⟩
    rw [Filter.enclosing_singleton, hliteral.1]
    exact Nat.le_refl _
  | views names =>
    refine absurd hplain (not_plain_together (fun hview => ?_) h)
    obtain ⟨view, inner, -, rfl, -⟩ := viewFilter_eq_ok hview
    exact fun hplain => hplain.self
  | virtualPaths paths => exact absurd hplain (not_plain_together not_plain_resolve h)
  | collectionPaths paths => exact absurd hplain (not_plain_together not_plain_resolve h)
  | categoryUids path operator uids =>
    obtain ⟨fs, m₁, hfs, h⟩ := bind_eq_ok.mp h
    obtain ⟨hne, rfl⟩ := together_eq_ok h
    have hlength : fs.length = uids.length := length_of_mapM hfs
    have heach : ∀ g ∈ fs, ∃ uid, Filter.comparison path operator (.text uid) = g ∧ known uid :=
      forall_of_mapM (fun {uid} _ _ _ huid => by
        obtain ⟨rfl, category, hcategory⟩ := categoryByUid_eq_ok huid
        exact ⟨uid, rfl, hknown.withUid hcategory⟩) hfs
    refine ⟨Filter.wellFormed_merged .and hne fun g hg => ?_,
      (Filter.everywhere_merged (Filter.legible_group known) .and fs).mpr fun g hg => ?_, ?_⟩
    · obtain ⟨uid, rfl, -⟩ := heach g hg
      exact Filter.wellFormed_comparison hadmissible.1 (Comparison.fits_text hadmissible.2 uid)
    · obtain ⟨uid, rfl, huid⟩ := heach g hg
      exact (Filter.everywhere_leaf rfl).mpr
        (Filter.legible_categories hadmissible.2 (.inr ⟨hliteral, huid⟩))
    · rw [Comparison.brackets, ← hlength]
      refine Filter.enclosing_merged_of_leaves .and hne fun g hg => ?_
      obtain ⟨uid, rfl, -⟩ := heach g hg
      rfl
  | categoryName operator name =>
    obtain ⟨category, hcategory, rfl⟩ := categoryByName_eq_ok h
    have huid : (PropertyPath.pair .categories .uid).WellFormed :=
      ⟨by decide, by decide, .inl rfl, by decide⟩
    refine ⟨Filter.wellFormed_comparison huid (Comparison.fits_text hadmissible category.uid),
      (Filter.everywhere_leaf rfl).mpr (Filter.legible_categories hadmissible
        (.inr ⟨by decide, hknown.named hcategory⟩)), Nat.le_refl _⟩

end Selection

end CalendarQuery

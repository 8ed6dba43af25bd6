import CalendarQuery.Proofs.Compiler
import CalendarQuery.Proofs.Expression.Brackets
import CalendarQuery.Proofs.Expression.Nesting

/-!
# Accepted expressions and the greatest nesting

The canonical text of a plain filter is refused for its nesting if and only if its parentheses
exceed the greatest nesting. It has no more of them than the expression that it was compiled from,
with one exception: a list of several words becomes a group, which is written in parentheses of its
own. An expression that is nested as deep as can be, with a list in its innermost parentheses, is
accepted, and its canonical text is not.

* `Compiler.filter_text_of_passes`: the text of a filter whose leaves are read, or fail.
* `Compiler.filter_tower`: expressions of any depth with a list in the middle.
* `Compiler.filter_text_nesting`: the text of a filter that an expression was compiled to.
* `Compiler.filter_text_tower`: an expression that is accepted, and whose text is refused.
-/

namespace CalendarQuery

open Compilation Grammar

namespace Parser

variable {s : Selection} {f : Filter}

/-- A legible leaf is read and compiled, unless its bounds or its category fail. -/
theorem comes_of_legible (hleaf : f.isGroup = false) (hsane : f.Sane)
    (hlegible : f.Legible fun _ => True) : Comes s.compile QueryError.OfLeaf f where
  read := Comparison.readsOr_leaf hleaf hsane hlegible
  compile := s.outcome_compile_legible hsane

/-- A restorable leaf is read and compiled. -/
theorem comes_of_restorable {E : QueryError → Prop} (h : f.RestorableLeaf s.hierarchy) :
    Comes s.compile E f where
  read hs := (Comparison.reads_leaf h hs).or
  compile m := .inl (s.outcome_compile_leaf h m)

/-- A well-formed filter passes if its leaves come through. -/
theorem passes_of_wellFormed {compile : Comparison → Compilation Filter} {E : QueryError → Prop}
    {P : Filter → Prop} (hleaf : ∀ g : Filter, g.isGroup = false → g.Sane → P g → Comes compile E g)
    (hf : f.WellFormed) (hP : f.Everywhere P) : f.Everywhere (Passes compile E) := by
  intro g hg
  have hsane := hf g hg
  match g with
  | .and none children => exact List.ne_nil_of_length_pos (Nat.lt_of_lt_of_le Nat.two_pos hsane.1)
  | .and (some name) children => exact hsane
  | .or children => exact List.ne_nil_of_length_pos (Nat.lt_of_lt_of_le Nat.two_pos hsane.1)
  | .compare .. | .presence .. | .entity .. | .timeRange .. | .view .. =>
    exact hleaf _ rfl hsane (hP _ hg)

end Parser

namespace Compiler

open CalendarQuery.Parser

variable {f : Filter} {explicit : Bool}

/-- A filter whose leaves come through or fail with `E`: its text compiles to its normal form, or is
refused for its nesting, or fails with such a cause before. -/
theorem filter_text_of_passes (c : Compiler) {E : QueryError → Prop}
    (hf : f.Everywhere (Passes (c.comparing explicit) E)) (hlength : c.limits.admits f.text = true)
    (source : String) (m : Memos) : ∃ outcome, c.filter f.text explicit source m = (outcome, m) ∧
      (outcome = .filter f.normal ∧ f.parentheses ≤ maxNesting ∨
        outcome = .failed source (.nestingTooDeep maxNesting) ∧ maxNesting < f.parentheses ∨
        ∃ cause, outcome = .failed source cause ∧ E cause) := by
  have hcompile : c.compile explicit f.text = parseExpression (c.comparing explicit) f.text :=
    compileWithin_of_admits hlength
  obtain ⟨g, hg, hfits, rfl⟩ | ⟨cause, hcause, hE⟩ := runs_text hf m
  · exact ⟨_, filter_eq_filter.mpr (by rw [hcompile, hg]), .inl ⟨rfl, hfits⟩⟩
  · refine ⟨_, filter_of_error (by rw [hcompile, hcause]), .inr ?_⟩
    obtain hE | ⟨hdeep, rfl⟩ := hE
    · exact .inr ⟨cause, rfl, hE⟩
    · exact .inl ⟨rfl, Nat.lt_of_not_le hdeep⟩

/-- The same if all leaves come through. -/
theorem filter_text_of_restorable (c : Compiler)
    (hf : f.Everywhere (Passes (c.comparing explicit) fun _ => False))
    (hlength : c.limits.admits f.text = true) (source : String) (m : Memos) :
    c.filter f.text explicit source m = (if f.parentheses ≤ maxNesting then .filter f.normal
      else .failed source (.nestingTooDeep maxNesting), m) := by
  obtain ⟨outcome, houtcome, ⟨rfl, hle⟩ | ⟨rfl, hlt⟩ | ⟨cause, -, hfalse⟩⟩ :=
    c.filter_text_of_passes hf hlength source m
  · rw [houtcome, if_pos hle]
  · rw [houtcome, if_neg (Nat.not_le.mpr hlt)]
  · exact hfalse.elim

/-! ## Towers of parentheses -/

/-- The hrefs of the list in the middle of a tower, as a group. -/
def twoHrefs : Filter :=
  .and none (["/a", "/b"].map fun href => .comparison (.pair .categories .href) .equal (.text href))

/-- The operators of a tower take turns, so that no level is merged with the one inside it. -/
def towerOp (depth : Nat) : LogicalOp := if depth % 2 = 0 then .or else .and

/-- An expression of the given depth with a list in the middle. -/
def towerText : Nat → String
  | 0 => (defined .owner).text ++ " | categories.href = (\"/a\", \"/b\")"
  | depth + 1 => (defined .owner).text ++ " " ++ (towerOp (depth + 1)).symbol.toString ++ " (" ++
    towerText depth ++ ")"

/-- Its filter. -/
def tower : Nat → Filter
  | 0 => .group (towerOp 0) [defined .owner, twoHrefs]
  | depth + 1 => .group (towerOp (depth + 1)) [defined .owner, tower depth]

/-- Its syntax tree. -/
def towerLevel : Nat → Level
  | 0 => .mk (definedFactor .owner) (towerOp 0) [.comparison (.direct twoHrefs)]
  | depth + 1 => .mk (definedFactor .owner) (towerOp (depth + 1)) [.group (towerLevel depth)]

/-- The tokens of the list in the middle. -/
def hrefTokens : List Token :=
  ((PropertyPath.pair .categories .href).tokens ++ Comparator.equal.tokens) ++
    .symbol '(' :: .quoted "/a" :: Comparison.furtherTokens ["/b"]

/-- Its tokens. -/
def towerTokens : Nat → List Token
  | 0 => (defined .owner).tokens ++ .symbol '|' :: hrefTokens
  | depth + 1 => (defined .owner).tokens ++ .symbol (towerOp (depth + 1)).symbol :: .symbol '(' ::
    (towerTokens depth ++ [.symbol ')'])

example : towerText 1 =
    "owner isdefined & (owner isdefined | categories.href = (\"/a\", \"/b\"))" := by decide

theorem reads_twoHrefs (s : TokenStream) :
    Reader.Reads Comparison.readNext (s.append hrefTokens) (.direct twoHrefs) s := by
  have hpath : (PropertyPath.pair .categories .href).WellFormed :=
    ⟨by decide, by decide, .inl rfl, by decide⟩
  rw [hrefTokens, TokenStream.append_append, TokenStream.append_cons, TokenStream.append_cons]
  refine Comparison.reads_parts hpath (TokenStream.readable_cons _ _) (by simp) ?_
  exact (Comparison.reads_require _ (by decide) _).bind
    ((Comparison.reads_list "/a" ["/b"] s).bind (Reader.Reads.pure _ s))

theorem ofChars_hrefs {cs : List Char} :
    TokenStream.ofChars ("categories.href = (\"/a\", \"/b\")".toList ++ cs) =
      (TokenStream.ofChars cs).append hrefTokens := by
  have htext : "categories.href = (\"/a\", \"/b\")" =
      Comparison.wordsText (.pair .categories .href) .equal ["/a", "/b"] := by decide
  rw [htext, Comparison.ofChars_wordsText _ _ (by simp), ← TokenStream.append_append]
  rfl

theorem ofChars_towerText (depth : Nat) {cs : List Char} (h : TokenStream.Bounded cs) :
    TokenStream.ofChars ((towerText depth).toList ++ cs) =
      (TokenStream.ofChars cs).append (towerTokens depth) := by
  induction depth generalizing cs with
  | zero =>
    have hchars : (towerText 0).toList ++ cs = (defined .owner).text.toList ++ ' ' :: '|' :: ' ' ::
        ("categories.href = (\"/a\", \"/b\")".toList ++ cs) := by
      simp [towerText]
    rw [hchars, TokenStream.ofChars_text _ (TokenStream.bounded_blank _), TokenStream.ofChars_blank,
      TokenStream.ofChars_symbol (by decide), TokenStream.ofChars_blank, ofChars_hrefs]
    simp [towerTokens]
  | succ depth ih =>
    have hchars : (towerText (depth + 1)).toList ++ cs = (defined .owner).text.toList ++ ' ' ::
        (towerOp (depth + 1)).symbol :: ' ' :: '(' :: ((towerText depth).toList ++ ')' :: cs) := by
      simp [towerText]
    have hsymbol : Token.isSymbolChar (towerOp (depth + 1)).symbol = true := by
      cases towerOp (depth + 1) <;> decide
    rw [hchars, TokenStream.ofChars_text _ (TokenStream.bounded_blank _), TokenStream.ofChars_blank,
      TokenStream.ofChars_symbol hsymbol, TokenStream.ofChars_blank,
      TokenStream.ofChars_symbol (by decide), ih (TokenStream.bounded_cons (by decide) cs),
      TokenStream.ofChars_symbol (by decide)]
    simp [towerTokens]

theorem ofString_towerText (depth : Nat) :
    TokenStream.ofString (towerText depth) = TokenStream.done.append (towerTokens depth) := by
  have h := ofChars_towerText depth TokenStream.bounded_nil
  rwa [List.append_nil, TokenStream.ofChars_nil] at h

theorem spells_towerLevel (depth : Nat) {s : TokenStream} (hs : Comparison.Ends s)
    (hgiven : (s.append (towerTokens depth)).Given) :
    (towerLevel depth).Spells (s.append (towerTokens depth)) s := by
  have howner : ∀ {s : TokenStream}, Comparison.Ends s →
      (s.append (defined .owner).tokens).Given →
      (definedFactor .owner).Spells (s.append (defined .owner).tokens) s := fun hs hgiven =>
    (Comparison.reads_leaf (h := .anyUid) (f := defined .owner)
      (PropertyPath.wellFormed_single rfl) hs).accepts hgiven
  induction depth generalizing s with
  | zero =>
    rw [towerTokens, TokenStream.append_append, TokenStream.append_cons] at hgiven ⊢
    refine ⟨_, howner (ends_symbol _ (by decide)) hgiven, .symbol '|', _, s, rfl, rfl, ?_, rfl⟩
    exact (reads_twoHrefs s).accepts hgiven.of_append.of_cons
  | succ depth ih =>
    have hop : (towerOp (depth + 1)).symbol ≠ '=' := by cases towerOp (depth + 1) <;> decide
    have hstream : s.append (towerTokens (depth + 1)) =
        ((((s.cons (.symbol ')')).append (towerTokens depth)).cons (.symbol '(')).cons
          (.symbol (towerOp (depth + 1)).symbol)).append (defined .owner).tokens := by
      simp [towerTokens]
    rw [hstream] at hgiven ⊢
    refine ⟨_, howner (ends_symbol _ hop) hgiven, _, _, s, rfl, logicalOp?_symbol _, ?_, rfl⟩
    exact ⟨_, rfl, ih (ends_symbol s (by decide)) hgiven.of_append.of_cons.of_cons⟩

theorem nesting_towerLevel (depth : Nat) : (towerLevel depth).nesting = depth := by
  induction depth with
  | zero => rfl
  | succ depth ih =>
    rw [towerLevel, Level.nesting, nestingEach, Factor.nesting, ih, nestingEach, definedFactor,
      Factor.nesting, Nat.zero_max, Nat.max_zero]

theorem towerOp_succ_ne (depth : Nat) : towerOp (depth + 1) ≠ towerOp depth := by
  unfold towerOp
  split <;> split <;> first | decide | omega

/-- A tower is not merged with the level around it. -/
theorem parts_tower (depth : Nat) : (tower depth).parts (towerOp (depth + 1)) = [tower depth] := by
  obtain ⟨fs, hfs⟩ : ∃ fs, tower depth = .group (towerOp depth) fs := by
    cases depth <;> exact ⟨_, rfl⟩
  have hne := towerOp_succ_ne depth
  rw [hfs]
  generalize towerOp (depth + 1) = op at hne ⊢
  cases hop : towerOp depth <;> cases op <;> simp_all [Filter.parts, Filter.group]

theorem outcome_denote_towerLevel (s : Selection) (depth : Nat) (m : Memos) :
    ((towerLevel depth).denote s.compile).outcome m = (.ok (tower depth), m) := by
  induction depth with
  | zero => rfl
  | succ depth ih =>
    have hfactors : (denoteEach s.compile [.group (towerLevel depth)]).outcome m =
        (.ok [tower depth], m) := by
      rw [denoteEach, Factor.denote, outcome_bind_of_ok ih]
      rfl
    have howner : ((definedFactor .owner).denote s.compile).outcome m =
        (.ok (defined .owner), m) := rfl
    rw [towerLevel, Level.denote, outcome_bind_of_ok howner, outcome_bind_of_ok hfactors,
      folded_cons, folded_nil, Filter.fold, parts_tower]
    rfl

/-- Every tower within the greatest nesting is accepted. -/
theorem filter_tower (c : Compiler) {depth : Nat} (hdepth : depth ≤ maxNesting)
    (hlength : c.limits.admits (towerText depth) = true) (explicit : Bool) (source : String)
    (m : Memos) : c.filter (towerText depth) explicit source m = (.filter (tower depth), m) := by
  have hgiven := TokenStream.given_ofString (towerText depth)
  rw [filter_eq_filter, compile, compileWithin_eq_ok]
  refine ⟨hlength, towerLevel depth, ?_, by rwa [nesting_towerLevel],
    outcome_denote_towerLevel _ depth m⟩
  rw [ofString_towerText] at hgiven ⊢
  exact spells_towerLevel depth ends_done hgiven

theorem parentheses_tower (depth : Nat) : (tower depth).parentheses = depth + 1 := by
  induction depth with
  | zero => rfl
  | succ depth ih =>
    have hgroup : (tower depth).isGroup = true := by
      cases depth <;> rw [tower] <;> unfold towerOp <;> split <;> rfl
    rw [tower, Filter.parentheses_group, Filter.enclosing, Filter.enclosing_singleton,
      if_pos hgroup, ih]
    rfl

/-- What holds of unnamed groups that are not empty, and of the leaves of a tower, holds everywhere
in it. -/
theorem everywhere_tower {P : Filter → Prop} (hgroup : ∀ op f g, P (.group op [f, g]))
    (howner : P (defined .owner))
    (hhref : ∀ href, P (.comparison (.pair .categories .href) .equal (.text href))) (depth : Nat) :
    (tower depth).Everywhere P := by
  have hleaf : (defined .owner).Everywhere P := (Filter.everywhere_leaf rfl).mpr howner
  induction depth with
  | zero =>
    have hhrefs : twoHrefs.Everywhere P := by
      refine Filter.everywhere_and.mpr ⟨hgroup .and _ _, fun f hf => ?_⟩
      obtain ⟨href, -, rfl⟩ := List.mem_map.mp hf
      exact (Filter.everywhere_leaf rfl).mpr (hhref href)
    refine Filter.everywhere_group.mpr ⟨hgroup _ _ _, ?_⟩
    simpa using ⟨hleaf, hhrefs⟩
  | succ depth ih =>
    refine Filter.everywhere_group.mpr ⟨hgroup _ _ _, ?_⟩
    simpa using ⟨hleaf, ih⟩

theorem plain_tower (depth : Nat) : (tower depth).Plain :=
  everywhere_tower (fun op _ _ => Filter.isPlain_group op _) trivial (fun _ h => by cases h) depth

/-! ## Accepted expressions -/

/-- The canonical text of an accepted expression with a plain filter, read again. Its parentheses
are those of the expression, lists of several words counted, and so exceed its nesting by one at
most. If they are within the greatest nesting the text is not refused for its nesting, and else it
is; unless a bound or a category fails before. None does where the hierarchy finds by its uid each
category that it finds by name, and all bounds are in years of four digits. -/
theorem filter_text_nesting (c : Compiler) (text : String) (explicit : Bool) (source : String)
    (m m' : Memos) (f : Filter) (hf : c.filter text explicit source m = (.filter f, m'))
    (hplain : f.Plain) (hlength : c.limits.admits f.text = true) :
    (∃ level : Level, level.Spells (TokenStream.ofString text) .done ∧ level.nesting ≤ maxNesting ∧
      (level.denote (c.comparing explicit)).outcome m = (.ok f, m') ∧
      f.parentheses ≤ level.brackets ∧ level.brackets ≤ level.nesting + 1) ∧
    (∀ (explicit' : Bool) (source' : String) (m₁ : Memos), ∃ outcome,
      c.filter f.text explicit' source' m₁ = (outcome, m₁) ∧
      (outcome = .filter f ∧ f.parentheses ≤ maxNesting ∨
        outcome = .failed source' (.nestingTooDeep maxNesting) ∧ maxNesting < f.parentheses ∨
        ∃ cause, outcome = .failed source' cause ∧ cause.OfLeaf)) ∧
    ((∀ name category, c.hierarchy.categoryNamed name = .ok (some category) →
        ∃ found, c.hierarchy.categoryWithUid category.uid = .ok (some found)) →
      f.Everywhere Filter.Dated →
      ∀ (explicit' : Bool) (source' : String) (m₁ : Memos),
        c.filter f.text explicit' source' m₁ = (if f.parentheses ≤ maxNesting then .filter f
          else .failed source' (.nestingTooDeep maxNesting), m₁)) := by
  obtain ⟨-, level, hspells, hnesting, hdenote⟩ := compileWithin_eq_ok.mp (filter_eq_filter.mp hf)
  have hany : c.hierarchy.Knows fun _ => True := ⟨fun _ => trivial, fun _ => trivial⟩
  obtain ⟨hwellFormed, hlegible, hparentheses⟩ := plain_level hany level hspells hdenote hplain
  have hnormal : f.normal = f := f.normal_eq_self hwellFormed hplain
  refine ⟨⟨level, hspells, hnesting, hdenote, hparentheses, level.brackets_le⟩, ?_, ?_⟩
  · intro explicit' source' m₁
    have hpasses : f.Everywhere (Passes (c.comparing explicit') QueryError.OfLeaf) :=
      passes_of_wellFormed (fun _ => comes_of_legible) hwellFormed hlegible
    have houtcome := c.filter_text_of_passes hpasses hlength source' m₁
    rwa [hnormal] at houtcome
  · intro huids hdated explicit' source' m₁
    have hknown : c.hierarchy.Knows fun uid =>
        ∃ found, c.hierarchy.categoryWithUid uid = .ok (some found) :=
      ⟨fun h => ⟨_, h⟩, huids _ _⟩
    obtain ⟨-, hlegible, -⟩ := plain_level hknown level hspells hdenote hplain
    have hpasses : f.Everywhere (Passes (c.comparing explicit') fun _ => False) :=
      passes_of_wellFormed (fun g hleaf hsane h =>
        comes_of_restorable (Filter.restorableLeaf_of hleaf hsane h.1 h.2)) hwellFormed
        (hlegible.and hdated)
    rw [c.filter_text_of_restorable hpasses hlength, hnormal]

/-- A tower of 63 levels has as many parentheses in its text as there may be, and reads back. -/
theorem filter_text_nesting_tower :
    let c : Compiler := ⟨Store.empty.hierarchy, .standard⟩
    (c.filter (towerText 63) false "" .empty = (.filter (tower 63), .empty) ∧
      (tower 63).Plain ∧ c.limits.admits (tower 63).text = true) ∧
    (tower 63).parentheses = 64 ∧
    c.filter (tower 63).text true "again" .empty = (.filter (tower 63), .empty) := by
  intro c
  have hlength : c.limits.admits (tower 63).text = true := by decide +kernel
  have haccepted : c.filter (towerText 63) false "" .empty = (.filter (tower 63), .empty) :=
    c.filter_tower (by decide) (by decide +kernel) false "" .empty
  have hdated : (tower 63).Everywhere Filter.Dated :=
    everywhere_tower (fun op _ _ => by cases op <;> trivial) trivial (fun _ => trivial) 63
  refine ⟨⟨haccepted, plain_tower 63, hlength⟩, parentheses_tower 63, ?_⟩
  have hread := (filter_text_nesting c (towerText 63) false "" .empty .empty (tower 63) haccepted
    (plain_tower 63) hlength).2.2 (fun _ _ h => by cases h) hdated true "again" .empty
  rwa [parentheses_tower, if_pos (by decide)] at hread

/-- A tower with as many parentheses as there may be is accepted, and its text, with one pair more,
is not. -/
theorem filter_text_tower :
    let c : Compiler := ⟨Store.empty.hierarchy, .standard⟩
    (c.filter (towerText 64) false "" .empty = (.filter (tower 64), .empty) ∧
      (tower 64).Plain ∧ c.limits.admits (tower 64).text = true ∧
      c.filter (tower 64).text false "" .empty = (.failed "" (.nestingTooDeep 64), .empty)) ∧
    ¬∀ (text : String) (f : Filter) (m : Memos), c.filter text false "" .empty = (.filter f, m) →
      f.Plain → c.limits.admits f.text = true → ∀ limit,
        (c.filter f.text false "" .empty).1 ≠ .failed "" (.nestingTooDeep limit) := by
  intro c
  have hlength : c.limits.admits (tower 64).text = true := by decide +kernel
  have haccepted : c.filter (towerText 64) false "" .empty = (.filter (tower 64), .empty) :=
    c.filter_tower (by decide) (by decide +kernel) false "" .empty
  have hpasses : (tower 64).Everywhere (Passes (c.comparing false) fun _ => False) := by
    refine everywhere_tower (fun op f g => ?_) ?_ (fun href => ?_) 64
    · cases op <;> exact List.cons_ne_nil f [g]
    · exact comes_of_restorable (PropertyPath.wellFormed_single rfl)
    · exact comes_of_restorable ⟨⟨⟨by decide, by decide, .inl rfl, by decide⟩, rfl, by decide,
        by simp, fun _ => ⟨by decide, href, rfl, .inl (by decide)⟩⟩, rfl⟩
  have hrefused : c.filter (tower 64).text false "" .empty =
      (.failed "" (.nestingTooDeep 64), .empty) := by
    rw [c.filter_text_of_restorable hpasses hlength, parentheses_tower]
    rfl
  refine ⟨⟨haccepted, plain_tower 64, hlength, hrefused⟩, fun h => ?_⟩
  exact h _ _ _ haccepted (plain_tower 64) hlength 64 (by rw [hrefused])

end Compiler

end CalendarQuery

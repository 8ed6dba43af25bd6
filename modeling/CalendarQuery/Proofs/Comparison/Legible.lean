import CalendarQuery.Proofs.Comparison.Plain
import CalendarQuery.Proofs.Time.Bound

/-!
# Legible leaves are read again

The text of a leaf that is sane and legible is read as a comparison that gives the leaf, unless a
bound is in a year that no form of a bound can write, or the hierarchy does not find a category by
its uid.

* `QueryError.OfLeaf`: the causes of those failures.
* `Reader.ReadsOr`: the judgment of readers that may fail with some causes.
* `Comparison.readsOr_leaf`, `Selection.outcome_compile_legible`: a leaf is read, and compiled.
* `Filter.restorableLeaf_of`: the leaves that come through.
-/

namespace CalendarQuery

open Reader TokenStream

/-- The cause tells of a bound of a time range, or of a category. -/
def QueryError.OfLeaf : QueryError → Prop
  | .badDateTime _ | .missingCategory _ | .lookup _ => True
  | _ => False

/-! ## Readers that may fail -/

namespace Reader

variable {α β : Type} {E : QueryError → Prop} {s s₁ s' : TokenStream} {a : α} {b : β}

/-- Wherever the tokens are those of `s`, the reader gives `a` and leaves those of `s'`, or fails
with a cause of the kind `E`. -/
def ReadsOr (E : QueryError → Prop) (r : Reader α) (s : TokenStream) (a : α) (s' : TokenStream) :
    Prop :=
  ∀ l : Lexer, l.Gives s →
    (∃ l', r l = .ok (a, l') ∧ l'.Gives s') ∨ ∃ cause, r l = .error cause ∧ E cause

theorem Reads.or {r : Reader α} (h : Reads r s a s') : ReadsOr E r s a s' :=
  fun l hl => .inl (h l hl)

namespace ReadsOr

theorem fail {cause : QueryError} (h : E cause) : ReadsOr E (Reader.fail cause) s a s' :=
  fun _ _ => .inr ⟨cause, rfl, h⟩

theorem bind {r : Reader α} {f : α → Reader β} (hr : ReadsOr E r s a s₁)
    (hf : ReadsOr E (f a) s₁ b s') : ReadsOr E (r >>= f) s b s' := by
  intro l hl
  obtain ⟨l₁, h₁, hl₁⟩ | ⟨cause, h₁, hcause⟩ := hr l hl
  · obtain ⟨l₂, h₂, hl₂⟩ | ⟨cause, h₂, hcause⟩ := hf l₁ hl₁
    · exact .inl ⟨l₂, bind_eq_ok.mpr ⟨a, l₁, h₁, h₂⟩, hl₂⟩
    · exact .inr ⟨cause, bind_eq_error.mpr (.inr ⟨a, l₁, h₁, h₂⟩), hcause⟩
  · exact .inr ⟨cause, bind_eq_error.mpr (.inl h₁), hcause⟩

theorem next_bind {f : Lexeme → Reader β} {t : Token}
    (hf : ∀ x : Lexeme, x.token = t → ReadsOr E (f x) s b s') :
    ReadsOr E (Reader.next >>= f) (s.cons t) b s' := by
  intro l hl
  obtain ⟨x, l₁, h₁, hx, hl₁⟩ := hl.next (readable_cons t s)
  obtain ⟨l₂, h₂, hl₂⟩ | ⟨cause, h₂, hcause⟩ := hf x hx l₁ hl₁
  · exact .inl ⟨l₂, bind_eq_ok.mpr ⟨x, l₁, h₁, h₂⟩, hl₂⟩
  · exact .inr ⟨cause, bind_eq_error.mpr (.inr ⟨x, l₁, h₁, h₂⟩), hcause⟩

theorem peek_bind {f : Lexeme → Reader β} (hs : s.Readable)
    (hf : ∀ x : Lexeme, x.token = s.head → ReadsOr E (f x) s b s') :
    ReadsOr E (Reader.peek >>= f) s b s' := by
  intro l hl
  obtain ⟨x, l₁, h₁, hx, hl₁⟩ := hl.peek hs
  obtain ⟨l₂, h₂, hl₂⟩ | ⟨cause, h₂, hcause⟩ := hf x hx l₁ hl₁
  · exact .inl ⟨l₂, bind_eq_ok.mpr ⟨x, l₁, h₁, h₂⟩, hl₂⟩
  · exact .inr ⟨cause, bind_eq_error.mpr (.inr ⟨x, l₁, h₁, h₂⟩), hcause⟩

end ReadsOr

end Reader

namespace Filter

/-- The bounds of a time range are in years of four digits. -/
def Dated : Filter → Prop
  | .timeRange _ first last =>
    ∀ t ∈ first.toList ++ last.toList, 0 ≤ t.date.year ∧ t.date.year ≤ 9999
  | _ => True

/-- A legible leaf whose categories are found, and whose bounds can be written. -/
theorem restorableLeaf_of {h : Hierarchy} {f : Filter} (hleaf : f.isGroup = false) (hsane : f.Sane)
    (hlegible : f.Legible fun uid => ∃ category, h.categoryWithUid uid = .ok (some category))
    (hdated : f.Dated) : f.RestorableLeaf h := by
  cases f with
  | and name children => cases hleaf
  | or children => cases hleaf
  | view name filter => exact hlegible.elim
  | entity kind => trivial
  | presence path isPresent => exact hsane
  | timeRange path first last =>
    obtain ⟨hpath, hsome, hfirst, hlast⟩ := hsane
    refine ⟨hpath, hsome, fun t ht => ⟨?_, hdated t ht⟩⟩
    rcases List.mem_append.mp ht with ht | ht
    · exact hfirst t (by simpa using ht)
    · exact hlast t (by simpa using ht)
  | compare path operator operand exact negate caseless isPrefix =>
    obtain ⟨hpath, hfits, rfl, rfl, rfl, rfl⟩ := hsane
    obtain ⟨hfirst, hcategories⟩ := hlegible
    refine ⟨⟨hpath, ?_, hfirst, ?_, hcategories⟩, rfl⟩
    · cases operand with
      | text value => exact hfits
      | number n => exact hfits.1
    · rintro n rfl
      exact hfits.2

end Filter

/-- A hierarchy that finds a category by each uid, and nothing else. -/
def Hierarchy.anyUid : Hierarchy where
  collection _ := .ok none
  children _ := .ok []
  categoryNamed _ := .ok none
  categoryWithUid uid := .ok (some ⟨uid, uid, none⟩)
  view _ := .ok none
  paths := []
  collection_mem := by
    intro path c h
    cases h
  children_mem := by
    intro path cs c h hc
    cases h
    cases hc

namespace Comparison

/-! ## Time ranges -/

theorem boundOfText_compact_or (t : Stamp) (ht : t.nanosecond = 0) :
    boundOfText t.compact = .ok (some t) ∨
      boundOfText t.compact = .error (.badDateTime t.compact) := by
  by_cases hyear : 0 ≤ t.date.year ∧ t.date.year ≤ 9999
  · exact .inl (boundOfText_compact t ⟨ht, hyear⟩)
  · obtain ⟨htrim, hne⟩ := t.trim_compact
    refine .inr ?_
    simp only [boundOfText, htrim, Stamp.ofBound?_signed hyear]
    simp [hne]

theorem readsOr_bound {bound : Option Stamp} {s : TokenStream}
    (h : ∀ t ∈ bound, t.nanosecond = 0) (hs : s.Readable) (hq : ∀ text, s.head ≠ .quoted text) :
    ReadsOr QueryError.OfLeaf readBound (s.append (Filter.boundTokens bound)) bound s := by
  cases bound with
  | none => exact (reads_bound (by simp) hs hq).or
  | some t =>
    simp only [Filter.boundTokens, append_cons, append_nil]
    refine ReadsOr.peek_bind (readable_cons _ _) fun x hx => ?_
    rw [head_cons] at hx
    simp only [hx]
    refine ReadsOr.next_bind fun _ _ => ?_
    rcases boundOfText_compact_or t (h t rfl) with hbound | hbound
    · rw [hbound]
      exact (Reads.pure _ s).or
    · rw [hbound]
      exact ReadsOr.fail trivial

theorem readsOr_timeRange {path : PropertyPath} {first last : Option Stamp} {s : TokenStream}
    (hr : (Filter.timeRange path first last).Sane) (hs : Ends s) :
    ReadsOr QueryError.OfLeaf (readTimeRange path)
      (s.append (Filter.boundTokens first ++ (.word "to" :: Filter.boundTokens last)))
      (.timeRange path first last) s := by
  obtain ⟨-, hsome, hfirst, hlast⟩ := hr
  rw [append_append, append_cons]
  refine (readsOr_bound hfirst (readable_cons _ _) (by simp)).bind ?_
  refine ReadsOr.next_bind fun x hx => ?_
  rw [if_pos (by simp [hx, Token.isKeyword])]
  refine (readsOr_bound hlast hs.readable hs.head_ne_quoted).bind ?_
  rw [if_neg (by rcases hsome with hb | hb <;> simp [Option.isSome_iff_ne_none.mp hb])]
  exact (Reads.pure _ s).or

/-- A path, an operator, and what follows them. -/
theorem readsOr_parts {E : QueryError → Prop} {path : PropertyPath} {operator : Comparator}
    {c : Comparison} {s s' : TokenStream} (hpath : path.WellFormed) (hs : s.Readable)
    (he : s.head ≠ .symbol '=') (h : ReadsOr E (readAfter path operator) s c s') :
    ReadsOr E readNext (s.append (path.tokens ++ operator.tokens)) c s' := by
  rw [append_append, PropertyPath.tokens, append_cons]
  refine ReadsOr.next_bind fun x hx => ?_
  refine (PropertyPath.reads_further hpath (operator.ends_tokens s) hx).or.bind ?_
  exact (operator.reads_tokens hs he).or.bind h

/-! ## Leaves -/

/-- A legible leaf is read from its tokens, but for a bound that cannot be written. -/
theorem readsOr_leaf {f : Filter} (hleaf : f.isGroup = false) (hsane : f.Sane)
    (hlegible : f.Legible fun _ => True) {s : TokenStream} (hs : Ends s) :
    ReadsOr QueryError.OfLeaf readNext (s.append f.tokens) f.toComparison s := by
  have hrestorable : f.Dated → Reads readNext (s.append f.tokens) f.toComparison s := by
    intro hdated
    refine reads_leaf (h := .anyUid) (Filter.restorableLeaf_of hleaf hsane ?_ hdated) hs
    exact hlegible.mono fun uid _ => ⟨_, rfl⟩
  cases f with
  | timeRange path first last =>
    have htokens : (Filter.timeRange path first last).tokens =
        (path.tokens ++ Comparator.inTimeRange.tokens) ++
          (Filter.boundTokens first ++ (.word "to" :: Filter.boundTokens last)) := by
      simp [Filter.tokens, Comparator.tokens, Comparator.symbol]
    rw [htokens, append_append]
    have hhead : (s.append (Filter.boundTokens first ++
        (.word "to" :: Filter.boundTokens last))).Readable ∧
        (s.append (Filter.boundTokens first ++
          (.word "to" :: Filter.boundTokens last))).head ≠ .symbol '=' := by
      cases first <;> simp only [Filter.boundTokens, List.cons_append, List.nil_append, append_cons]
        <;> exact ⟨readable_cons _ _, by simp⟩
    refine readsOr_parts hsane.1 hhead.1 hhead.2 ?_
    exact (readsOr_timeRange hsane hs).bind (Reads.pure _ s).or
  | _ => exact (hrestorable trivial).or

end Comparison

namespace Selection

open Compilation

/-- A legible leaf compiles to itself, or its category is not found; memos do not matter. -/
theorem outcome_compile_legible (s : Selection) {f : Filter} (hsane : f.Sane) (m : Memos) :
    (s.compile f.toComparison).outcome m = (.ok f, m) ∨
      ∃ cause, (s.compile f.toComparison).outcome m = (.error cause, m) ∧ cause.OfLeaf := by
  unfold Filter.toComparison
  split
  · rename_i path operator uid exact negate caseless isPrefix
    split
    · obtain ⟨-, -, rfl, rfl, rfl, rfl⟩ := hsane
      rw [compile]
      simp only [List.mapM_cons, List.mapM_nil, bind_assoc, categoryByUid]
      rcases s.hierarchy.categoryWithUid uid with cause | category
      · exact .inr ⟨.lookup cause, rfl, trivial⟩
      · cases category with
        | none => exact .inr ⟨.missingCategory uid, rfl, trivial⟩
        | some category => exact .inl rfl
    · exact .inl rfl
  · exact .inl rfl

end Selection

end CalendarQuery

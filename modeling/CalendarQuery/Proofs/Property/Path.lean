import CalendarQuery.Proofs.Property.Name
import CalendarQuery.Proofs.Text.Decimal
import CalendarQuery.Proofs.Token.Reader
import Mathlib.Data.List.Forall2

/-!
# Written property paths read back

* `PropertyPath.WellFormed`: what holds of every path that is read.
* `PropertyPath.tokens`: the tokens of a written path; `ofChars_path` splits a text into them.
* `PropertyPath.Spells`: the tokens that a path may have, whatever words name its properties.
* `PropertyPath.reads_spells`: a path is read from tokens that spell it.
-/

namespace CalendarQuery

open TokenStream

namespace PathSegment

/-- The tokens of an index. -/
def indexTokens (s : PathSegment) : List Token :=
  match s.number, s.key with
  | some n, _ => [.symbol '[', .number n, .symbol ']']
  | none, some k => [.symbol '[', .quoted k, .symbol ']']
  | none, none => []

/-- The tokens of a written segment. -/
def tokens (s : PathSegment) : List Token := .word s.property.spelling :: s.indexTokens

end PathSegment

namespace PropertyPath

/-- What the grammar of paths asks for: the first property stands on its own, the path is not too
deep for it, the others may follow, and only the first segment has an index, of one kind. -/
structure WellFormed (path : PropertyPath) : Prop where
  isSub_first : path.first.isSub = false
  depth_le : path.depth ≤ path.first.maxDepth
  one_index : path.head.number = none ∨ path.head.key = none
  tail_plain : ∀ s ∈ path.tail, s.property.mayFollow = true ∧ s = .plain s.property

/-- A property that is no part of another stands for a path. -/
theorem wellFormed_single {p : Property} (h : p.isSub = false) : (single p).WellFormed :=
  ⟨h, by cases p <;> decide, .inl rfl, by simp [single]⟩

/-- The tokens of segments behind the first. -/
def tailTokens (ss : List PathSegment) : List Token :=
  ss.flatMap fun s => .symbol '.' :: s.tokens

/-- The tokens of a path behind its first word. -/
def furtherTokens (path : PropertyPath) : List Token :=
  path.head.indexTokens ++ tailTokens path.tail

/-- The tokens of a written path. -/
def tokens (path : PropertyPath) : List Token :=
  .word path.first.spelling :: path.furtherTokens

/-- The word names the property of the segment. -/
def Names (word : String) (s : PathSegment) : Prop := Property.ofName? word = some s.property

/-- The tokens of words behind dots. -/
def dottedTokens (words : List String) : List Token :=
  words.flatMap fun word => [.symbol '.', .word word]

/-- The tokens spell the path: a word for each property, an index behind the first one and a dot
before each other. One word stands for the uid of a category, as a whole path. -/
inductive Spells : PropertyPath → List Token → Prop
  | categoryUid {word : String} : Text.sameName word Property.categoryUidWord = true →
    Spells (pair .categories .uid) [.word word]
  | segments {path : PropertyPath} {word : String} {words : List String} : path.WellFormed →
    Names word path.head → List.Forall₂ Names words path.tail →
    Spells path (.word word :: (path.head.indexTokens ++ dottedTokens words))

theorem Spells.exists_word {path : PropertyPath} {ts : List Token} (h : path.Spells ts) :
    ∃ word us, ts = .word word :: us := by
  cases h with
  | categoryUid _ => exact ⟨_, _, rfl⟩
  | segments _ _ _ => exact ⟨_, _, rfl⟩

end PropertyPath

/-! ## The text of a path -/

namespace TokenStream

theorem ofChars_spelling (p : Property) {cs : List Char} (h : Bounded cs) :
    ofChars (p.spelling.toList ++ cs) = (ofChars cs).cons (.word p.spelling) := by
  rw [ofChars_word p.spelling_ne_nil p.isWordChar_of_mem_spelling h, p.ofWord_spelling]

theorem ofChars_decimal (n : Int64) {cs : List Char} (h : Bounded cs) :
    ofChars ((Text.decimal n.toInt).toList ++ cs) = (ofChars cs).cons (.number n) := by
  rw [ofChars_word (Text.decimal_ne_nil _) (fun _ => Token.isWordChar_of_mem_decimal) h,
    Token.ofWord_decimal]

theorem ofChars_index (s : PathSegment) (cs : List Char) :
    ofChars (s.indexText.toList ++ cs) = (ofChars cs).append s.indexTokens := by
  obtain ⟨p, _ | n, _ | k⟩ := s
  · simp [PathSegment.indexText, PathSegment.indexTokens]
  · have hchars : ("[" ++ Text.quoted k ++ "]").toList ++ cs =
        '[' :: ((Text.quoted k).toList ++ ']' :: cs) := by simp
    simp only [PathSegment.indexText, PathSegment.indexTokens, hchars, append_cons, append_nil]
    rw [ofChars_symbol (by decide), ofChars_quoted, ofChars_symbol (by decide)]
  all_goals
    have hchars : ("[" ++ Text.decimal n.toInt ++ "]").toList ++ cs =
        '[' :: ((Text.decimal n.toInt).toList ++ ']' :: cs) := by simp
    simp only [PathSegment.indexText, PathSegment.indexTokens, hchars, append_cons, append_nil]
    rw [ofChars_symbol (by decide), ofChars_decimal n (bounded_cons (by decide) cs),
      ofChars_symbol (by decide)]

theorem bounded_index (s : PathSegment) {cs : List Char} (h : Bounded cs) :
    Bounded (s.indexText.toList ++ cs) := by
  obtain ⟨p, _ | n, _ | k⟩ := s
  · simpa [PathSegment.indexText] using h
  all_goals
    simp only [PathSegment.indexText, String.toList_append]
    exact bounded_cons (by decide) _

theorem ofChars_segment (s : PathSegment) {cs : List Char} (h : Bounded cs) :
    ofChars (s.text.toList ++ cs) = (ofChars cs).append s.tokens := by
  rw [PathSegment.text, String.toList_append, List.append_assoc,
    ofChars_spelling s.property (bounded_index s h), ofChars_index]
  rfl

theorem ofChars_segments (s : PathSegment) (ss : List PathSegment) {cs : List Char}
    (h : Bounded cs) :
    ofChars ((".".intercalate ((s :: ss).map PathSegment.text)).toList ++ cs) =
      (ofChars cs).append (s.tokens ++ PropertyPath.tailTokens ss) := by
  induction ss generalizing s with
  | nil => simpa [PropertyPath.tailTokens] using ofChars_segment s h
  | cons t ss ih =>
    have hchars : (".".intercalate ((s :: t :: ss).map PathSegment.text)).toList ++ cs =
        s.text.toList ++
          '.' :: ((".".intercalate ((t :: ss).map PathSegment.text)).toList ++ cs) := by
      simp only [List.map_cons, String.intercalate_cons_cons, String.toList_append]
      simp
    rw [hchars, ofChars_segment s (bounded_cons (by decide) _), ofChars_symbol (by decide), ih t]
    simp [PropertyPath.tailTokens]

/-- A written path gives its tokens, if nothing extends it. -/
theorem ofChars_path (path : PropertyPath) {cs : List Char} (h : Bounded cs) :
    ofChars (path.text.toList ++ cs) = (ofChars cs).append path.tokens :=
  ofChars_segments path.head path.tail h

end TokenStream

/-! ## Reading the tokens of a path -/

namespace PathSegment

open Reader

/-- No token of a path comes next. -/
def Ends (s : TokenStream) : Prop :=
  s.Readable ∧ s.head ≠ .symbol '.' ∧ s.head ≠ .symbol '['

theorem reads_number (p : Property) (n : Int64) (s : TokenStream) :
    Reads (readIndexed p) (s.cons (.number n)) ⟨p, some n, none⟩ s :=
  Reads.next_bind fun x hx => by simp only [hx]; exact Reads.pure _ s

theorem reads_key (p : Property) (k : String) (s : TokenStream) :
    Reads (readIndexed p) (s.cons (.quoted k)) ⟨p, none, some k⟩ s :=
  Reads.next_bind fun x hx => by simp only [hx]; exact Reads.pure _ s

theorem reads_closed {p : Property} {seg : PathSegment} {s' s : TokenStream}
    (h : Reads (readIndexed p) s' seg (s.cons (.symbol ']'))) : Reads (readIndex p) s' seg s :=
  h.bind (Reads.next_bind fun x hx => by
    rw [if_pos (by simp [hx, Token.isSymbol])]
    exact Reads.pure seg s)

theorem reads_index {seg : PathSegment} (h : seg.number = none ∨ seg.key = none)
    {s : TokenStream} (hs : s.Readable) (hb : s.head ≠ .symbol '[') :
    Reads (do if ← accept '[' then readIndex seg.property else return .plain seg.property)
      (s.append seg.indexTokens) seg s := by
  obtain ⟨p, _ | n, _ | k⟩ := seg
  · exact (Reads.accept_other hs hb).bind (Reads.pure _ s)
  · simp only [indexTokens, append_cons, append_nil]
    exact (Reads.accept_symbol '[' _).bind (reads_closed (reads_key p k _))
  · simp only [indexTokens, append_cons, append_nil]
    exact (Reads.accept_symbol '[' _).bind (reads_closed (reads_number p n _))
  · simp at h

theorem reads_first {word : String} {seg : PathSegment} (hname : PropertyPath.Names word seg)
    (hsub : seg.property.isSub = false) (h : seg.number = none ∨ seg.key = none) {s : TokenStream}
    (hs : s.Readable) (hb : s.head ≠ .symbol '[') :
    Reads (readFirst word) (s.append seg.indexTokens) seg s := by
  unfold readFirst
  rw [Property.lookup_eq_ok.mpr hname]
  simp only [hsub]
  exact reads_index h hs hb

theorem reads_following {word : String} {seg : PathSegment} (hname : PropertyPath.Names word seg)
    (hfollow : seg.property.mayFollow = true) (hplain : seg = .plain seg.property) {s : TokenStream}
    (hs : s.Readable) (hb : s.head ≠ .symbol '[') :
    Reads readFollowing (s.cons (.word word)) seg s := by
  refine Reads.next_bind fun x hx => ?_
  simp only [hx, Property.lookup_eq_ok.mpr hname, hfollow, if_true]
  refine Reads.peek_bind hs fun y hy => ?_
  rw [if_neg (by simp [hy, hb, Token.isSymbol]), ← hplain]
  exact Reads.pure seg s

/-- The tokens of segments behind the first do not open an index. -/
theorem head_dottedTokens (words : List String) {s : TokenStream} (h : Ends s) :
    (s.append (PropertyPath.dottedTokens words)).Readable ∧
      (s.append (PropertyPath.dottedTokens words)).head ≠ .symbol '[' := by
  cases words with
  | nil => exact ⟨h.1, h.2.2⟩
  | cons word words =>
    simp only [PropertyPath.dottedTokens, List.flatMap_cons, List.cons_append, append_cons]
    exact ⟨readable_cons _ _, by simp⟩

theorem reads_tail {words : List String} {ss : List PathSegment}
    (hnames : List.Forall₂ PropertyPath.Names words ss)
    (h : ∀ seg ∈ ss, seg.property.mayFollow = true ∧ seg = .plain seg.property)
    {s : TokenStream} (hs : Ends s) :
    Reads (many readDotted takes_readDotted) (s.append (PropertyPath.dottedTokens words)) ss s := by
  induction hnames with
  | nil => exact Reads.many_none ((Reads.accept_other hs.1 hs.2.1).bind (Reads.pure none s))
  | @cons word seg words ss hname _ ih =>
    obtain ⟨hfollow, hplain⟩ := h seg List.mem_cons_self
    obtain ⟨hreadable, hb⟩ := head_dottedTokens words hs
    have hseg := reads_following hname hfollow hplain hreadable hb
    have htail := ih fun t ht => h t (List.mem_cons_of_mem seg ht)
    have htokens : s.append (PropertyPath.dottedTokens (word :: words)) =
        ((s.append (PropertyPath.dottedTokens words)).cons (.word word)).cons (.symbol '.') := rfl
    rw [htokens]
    exact Reads.many_some ((Reads.accept_symbol '.' _).bind (hseg.bind (Reads.pure _ _))) htail

end PathSegment

namespace PropertyPath

open Reader

/-- A path is read from tokens that spell it, the first of which is read before. -/
theorem reads_spells {path : PropertyPath} {t : Token} {ts : List Token} (h : path.Spells (t :: ts))
    {s : TokenStream} (hs : PathSegment.Ends s) {x : Lexeme} (hx : x.token = t) :
    Reads (read x) (s.append ts) path s := by
  generalize hts : t :: ts = us at h
  cases h with
  | categoryUid hword =>
    cases hts
    unfold read
    simp only [hx, hword, if_true]
    refine Reads.peek_bind hs.1 fun y hy => ?_
    rw [if_neg (by simp [hy, hs.2.1, Token.isSymbol])]
    exact Reads.pure _ s
  | @segments _ word words hpath hname hnames =>
    cases hts
    obtain ⟨hreadable, hb⟩ := PathSegment.head_dottedTokens words hs
    have hfirst := PathSegment.reads_first hname hpath.isSub_first hpath.one_index hreadable hb
    have htail := PathSegment.reads_tail hnames hpath.tail_plain hs
    have hdepth : checkDepth ⟨path.head, path.tail⟩ = .ok path := if_pos hpath.depth_le
    unfold read
    simp only [hx, Property.sameName_categoryUidWord_of_ofName? hname, Bool.false_eq_true, if_false]
    rw [append_append]
    refine hfirst.bind (htail.bind ?_)
    rw [hdepth]
    exact Reads.pure path s

/-- A written path is spelled by its tokens. -/
theorem spells_tokens {path : PropertyPath} (h : path.WellFormed) : path.Spells path.tokens := by
  have htail : tailTokens path.tail =
      dottedTokens (path.tail.map fun s => s.property.spelling) := by
    rw [tailTokens, dottedTokens, List.flatMap_map]
    refine List.flatMap_congr fun seg hseg => ?_
    rw [(h.tail_plain seg hseg).2]
    rfl
  rw [tokens, furtherTokens, htail]
  refine .segments h (Property.ofName?_spelling _) ?_
  rw [List.forall₂_map_left_iff]
  exact List.forall₂_same.mpr fun seg _ => Property.ofName?_spelling _

/-- A well-formed path is read from its tokens, the first of which is read before. -/
theorem reads_further {path : PropertyPath} (h : path.WellFormed) {s : TokenStream}
    (hs : PathSegment.Ends s) {x : Lexeme} (hx : x.token = .word path.first.spelling) :
    Reads (read x) (s.append path.furtherTokens) path s :=
  reads_spells (spells_tokens h) hs hx

end PropertyPath

end CalendarQuery

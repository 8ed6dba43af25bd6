import CalendarQuery.Comparison.Reader
import CalendarQuery.Proofs.Filter.WellFormed
import CalendarQuery.Proofs.Time.Stamp
import CalendarQuery.Proofs.Token.Reading

/-!
# What is known of a comparison that has been read

Whatever reading the lexer obeys, comparisons are read with well-formed paths and filters, and the
words in them are quoted texts of the expression. One lemma for each reader leads there.

* `Comparison.Admissible`: what is known of a comparison.
* `PropertyPath.obeys_read`, `Comparison.obeys_read`: paths and comparisons that are read.
-/

namespace CalendarQuery

open Reader

variable {K : Reading}

namespace Reading

/-- A quoted text that was delivered is a word of the reading. -/
theorem word_of_lexeme {x : Lexeme} {text : String} (hx : K.lexeme x)
    (htext : x.token = .quoted text) : K.Word text :=
  ⟨x.position, by rw [← htext]; exact hx⟩

end Reading

/-! ## Paths -/

namespace PathSegment

/-- A segment of the property, with one index at most. -/
def Indexed (p : Property) (s : PathSegment) : Prop :=
  s.property = p ∧ (s.number = none ∨ s.key = none)

/-- A segment that may stand first. -/
def Leads (s : PathSegment) : Prop :=
  s.property.isSub = false ∧ (s.number = none ∨ s.key = none)

/-- A segment that may follow. -/
def Follows (s : PathSegment) : Prop := s.property.mayFollow = true ∧ s = .plain s.property

theorem obeys_readIndexed (hK : K.Lawful) (p : Property) :
    Obeys K (Indexed p) (readIndexed p) :=
  (Obeys.next hK).bind fun x hx => by
    split
    · exact Obeys.pure ⟨rfl, .inr rfl⟩
    · exact Obeys.pure ⟨rfl, .inl rfl⟩
    · exact Obeys.fail (hK.unexpected _ hx)

theorem obeys_readIndex (hK : K.Lawful) (p : Property) : Obeys K (Indexed p) (readIndex p) :=
  (obeys_readIndexed hK p).bind fun s hs => (Obeys.next hK).bind fun x hx => by
    split
    · exact Obeys.pure hs
    · exact Obeys.fail (hK.unexpected _ hx)

theorem obeys_readFirst (hK : K.Lawful) (word : String) : Obeys K Leads (readFirst word) := by
  unfold readFirst
  split
  · rename_i hlookup
    exact Obeys.fail (hK.placeless (Property.isPlaceless_of_lookup hlookup))
  · rename_i p _
    split
    · exact Obeys.fail (hK.placeless rfl)
    · rename_i hsub
      have hsub : p.isSub = false := by simpa using hsub
      refine (Obeys.accept hK '[').bind fun b _ => ?_
      split
      · exact (obeys_readIndex hK p).mono fun s hs => ⟨by rw [hs.1, hsub], hs.2⟩
      · exact Obeys.pure ⟨hsub, .inl rfl⟩

theorem obeys_readFollowing (hK : K.Lawful) : Obeys K Follows readFollowing :=
  (Obeys.next hK).bind fun x hx => by
    split
    · rename_i word hword
      split
      · rename_i hlookup
        exact Obeys.fail (hK.placeless (Property.isPlaceless_of_lookup hlookup))
      · rename_i p hlookup
        split
        · rename_i hfollow
          refine (Obeys.peek hK).bind fun y _ => ?_
          split
          · exact Obeys.fail (hK.placeless rfl)
          · exact Obeys.pure ⟨hfollow, rfl⟩
        · rename_i hfollow
          exact Obeys.fail (hK.misplaced _ hx hword
            ⟨p, Property.lookup_eq_ok.mp hlookup, by simpa using hfollow⟩)
    · exact Obeys.fail (hK.unexpected _ hx)

theorem obeys_readDotted (hK : K.Lawful) : Obeys K (fun o => ∀ s ∈ o, Follows s) readDotted :=
  (Obeys.accept hK '.').bind fun b _ => by
    split
    · exact (obeys_readFollowing hK).bind fun s hs => Obeys.pure (by simpa using hs)
    · exact Obeys.pure (by simp)

end PathSegment

namespace PropertyPath

/-- Every path that is read is well formed. -/
theorem obeys_read (hK : K.Lawful) {first : Lexeme} (hfirst : K.lexeme first) :
    Obeys K WellFormed (read first) := by
  unfold read
  split
  · split
    · refine (Obeys.peek hK).bind fun x _ => ?_
      split
      · exact Obeys.fail (hK.placeless rfl)
      · exact Obeys.pure ⟨by decide, by decide, .inl rfl, by decide⟩
    · refine (PathSegment.obeys_readFirst hK _).bind fun head hhead => ?_
      refine (Obeys.many (PathSegment.obeys_readDotted hK)).bind fun tail htail => ?_
      unfold checkDepth
      split
      · rename_i hdepth
        split at hdepth
        · rename_i hle
          cases hdepth
          exact Obeys.pure ⟨hhead.1, hle, hhead.2, htail⟩
        · cases hdepth
      · rename_i hdepth
        split at hdepth
        · cases hdepth
        · cases hdepth
          exact Obeys.fail (hK.placeless rfl)
  · exact Obeys.fail (hK.unexpected _ hfirst)

end PropertyPath

/-! ## Operators -/

namespace Comparator

theorem obeys_readNegated (hK : K.Lawful) : Obeys K (fun _ => True) readNegated :=
  (Obeys.next hK).bind fun x hx => by
    split
    · exact Obeys.pure trivial
    · exact Obeys.pure trivial
    · exact Obeys.fail (hK.unexpected _ hx)

theorem obeys_readOrEqual (hK : K.Lawful) (c d : Comparator) :
    Obeys K (fun _ => True) (readOrEqual c d) :=
  (Obeys.accept hK '=').bind fun b _ => by
    split
    · exact Obeys.pure trivial
    · exact Obeys.pure trivial

theorem obeys_read (hK : K.Lawful) : Obeys K (fun _ => True) read :=
  (Obeys.next hK).bind fun x hx => by
    split
    · exact Obeys.pure trivial
    · exact Obeys.pure trivial
    · exact obeys_readNegated hK
    · exact obeys_readOrEqual hK _ _
    · exact obeys_readOrEqual hK _ _
    · split
      · exact Obeys.pure trivial
      · exact Obeys.fail (hK.unexpected _ hx)
    · exact Obeys.fail (hK.unexpected _ hx)

end Comparator

/-! ## Comparisons -/

namespace Comparison

/-- What is known of a comparison whose words are of a kind. -/
def Admissible (word : String → Prop) : Comparison → Prop
  | .direct f => f.WellFormed
  | .views words | .virtualPaths words | .collectionPaths words => ∀ w ∈ words, word w
  | .categoryUids path operator _ => path.WellFormed ∧ operator ∈ [.equal, .notEqual]
  | .categoryName operator _ => operator ∈ [.equal, .notEqual]

theorem Admissible.mono {word word' : String → Prop} (h : ∀ w, word w → word' w)
    {c : Comparison} (hc : c.Admissible word) : c.Admissible word' := by
  cases c with
  | direct f => exact hc
  | views words => exact fun w hw => h w (hc w hw)
  | virtualPaths words => exact fun w hw => h w (hc w hw)
  | collectionPaths words => exact fun w hw => h w (hc w hw)
  | categoryUids path operator uids => exact hc
  | categoryName operator name => exact hc

theorem obeys_readText (hK : K.Lawful) : Obeys K K.Word readText :=
  (Obeys.next hK).bind fun x hx => by
    split
    · rename_i htext
      exact Obeys.pure (Reading.word_of_lexeme hx htext)
    · exact Obeys.fail (hK.unexpected _ hx)

theorem obeys_readOperand (hK : K.Lawful) : Obeys K (fun _ => True) readOperand :=
  (Obeys.next hK).bind fun x hx => by
    split
    · exact Obeys.pure trivial
    · exact Obeys.pure trivial
    · exact Obeys.fail (hK.unexpected _ hx)

theorem obeys_readFirstWord (hK : K.Lawful) : Obeys K K.Word readFirstWord :=
  (Obeys.next hK).bind fun x hx => by
    split
    · rename_i hword
      exact Obeys.pure (Reading.word_of_lexeme hx hword)
    · exact Obeys.fail (hK.placeless rfl)
    · exact Obeys.fail (hK.placeless rfl)
    · exact Obeys.fail (hK.unexpected _ hx)

theorem obeys_readFurtherWord (hK : K.Lawful) : Obeys K K.Word readFurtherWord :=
  (Obeys.next hK).bind fun x hx => by
    split
    · rename_i hword
      exact Obeys.pure (Reading.word_of_lexeme hx hword)
    · exact Obeys.fail (hK.placeless rfl)
    · exact Obeys.fail (hK.unexpected _ hx)

theorem obeys_readListItem (hK : K.Lawful) : Obeys K (fun o => ∀ w ∈ o, K.Word w) readListItem :=
  (Obeys.next hK).bind fun x hx => by
    split
    · exact (obeys_readFurtherWord hK).bind fun w hw => Obeys.pure (by simpa using hw)
    · exact Obeys.pure (by simp)
    · exact Obeys.fail (hK.placeless rfl)
    · exact Obeys.fail (hK.unexpected _ hx)

theorem obeys_readWords (hK : K.Lawful) : Obeys K (fun ws => ∀ w ∈ ws, K.Word w) readWords :=
  (Obeys.next hK).bind fun x hx => by
    split
    · rename_i hword
      exact Obeys.pure (by simpa using Reading.word_of_lexeme hx hword)
    · exact (obeys_readFirstWord hK).bind fun w hw =>
        (Obeys.many (obeys_readListItem hK)).bind fun ws hws =>
          Obeys.pure (List.forall_mem_cons.mpr ⟨hw, hws⟩)
    · exact Obeys.fail (hK.unexpected _ hx)

theorem obeys_require (hK : K.Lawful) (allowed : List Comparator) (operator : Comparator)
    (path : PropertyPath) : Obeys K (fun _ => operator ∈ allowed) (require allowed operator path) := by
  unfold require
  split
  · rename_i h
    exact Obeys.pure (by simpa using h)
  · exact Obeys.fail (hK.placeless rfl)

theorem obeys_readBound (hK : K.Lawful) :
    Obeys K (fun b => ∀ t ∈ b, t.nanosecond = 0) readBound :=
  (Obeys.peek hK).bind fun x _ => by
    split
    · rename_i text _
      refine (Obeys.next hK).bind fun _ _ => ?_
      unfold boundOfText
      simp only
      split
      · rename_i hbound
        split at hbound
        · cases hbound
          exact Obeys.pure (by simp)
        · split at hbound
          · rename_i ht
            cases hbound
            exact Obeys.pure (by simpa using Stamp.nanosecond_of_ofBound? ht)
          · cases hbound
      · rename_i hbound
        split at hbound
        · cases hbound
        · split at hbound
          · cases hbound
          · cases hbound
            exact Obeys.fail (hK.placeless rfl)
    · exact Obeys.pure (by simp)

theorem obeys_readTimeRange (hK : K.Lawful) {path : PropertyPath} (hpath : path.WellFormed) :
    Obeys K Filter.WellFormed (readTimeRange path) :=
  (obeys_readBound hK).bind fun first hfirst => (Obeys.next hK).bind fun x hx => by
    split
    · refine (obeys_readBound hK).bind fun last hlast => ?_
      split
      · exact Obeys.fail (hK.placeless rfl)
      · rename_i hnone
        have hsome : first.isSome ∨ last.isSome := by
          cases first <;> cases last <;> simp_all
        exact Obeys.pure (Filter.Sane.wellFormed (f := .timeRange path first last)
          ⟨hpath, hsome, hfirst, hlast⟩ rfl)
    · exact Obeys.fail (hK.unexpected _ hx)

theorem obeys_readEntity (hK : K.Lawful) (path : PropertyPath) (operator : Comparator) :
    Obeys K (Admissible K.Word) (readEntity path operator) :=
  (obeys_require hK _ _ _).bind fun _ _ => (obeys_readText hK).bind fun name _ => by
    split
    · rename_i kind _
      exact Obeys.pure (Filter.Sane.wellFormed (f := .entity kind) trivial rfl)
    · exact Obeys.fail (hK.placeless rfl)

/-- Equality and its negation compare texts. -/
theorem fits_text {operator : Comparator} (h : operator ∈ [Comparator.equal, .notEqual])
    (text : String) : Filter.Fits operator (.text text) := by
  rcases List.mem_cons.mp h with rfl | h
  · rfl
  · obtain rfl := List.mem_singleton.mp h
    rfl

theorem wellFormed_eachWord {path : PropertyPath} {operator : Comparator} {words : List String}
    {f : Filter} (hpath : path.WellFormed) (h : operator ∈ [Comparator.equal, .notEqual])
    (hf : eachWord path operator words = .ok f) : f.WellFormed := by
  unfold eachWord at hf
  split at hf
  · rename_i g hall
    cases hf
    refine Filter.wellFormed_combine (fun k hk => ?_) hall
    obtain ⟨w, -, rfl⟩ := List.mem_map.mp hk
    exact Filter.wellFormed_comparison hpath (fits_text h w)
  · cases hf

theorem obeys_readCategories (hK : K.Lawful) {path : PropertyPath} (hpath : path.WellFormed)
    (operator : Comparator) : Obeys K (Admissible K.Word) (readCategories path operator) := by
  refine (obeys_require hK _ _ _).bind fun _ hoperator => ?_
  split
  · exact (obeys_readWords hK).bind fun _ _ => Obeys.pure ⟨hpath, hoperator⟩
  · split
    · refine (obeys_readWords hK).bind fun words _ => ?_
      split
      · rename_i hf
        exact Obeys.pure (wellFormed_eachWord hpath hoperator hf)
      · rename_i hcause
        exact Obeys.fail (hK.placeless (isPlaceless_of_eachWord hcause))
    · split
      · exact Obeys.fail (hK.placeless rfl)
      · refine (obeys_readText hK).bind fun name _ => ?_
        split
        · have hhref : (PropertyPath.pair .categories .href).WellFormed :=
            ⟨by decide, by decide, .inl rfl, by decide⟩
          exact Obeys.pure (Filter.wellFormed_comparison hhref (fits_text hoperator name))
        · exact Obeys.pure hoperator

theorem wellFormed_ofOperand {path : PropertyPath} {operator : Comparator} {operand : Operand}
    {f : Filter} (hpath : path.WellFormed) (h : ofOperand path operator operand = .ok f) :
    f.WellFormed := by
  unfold ofOperand at h
  split at h
  · cases h
  · rename_i htakes
    split at h
    · cases h
    · rename_i hplain
      cases h
      refine Filter.wellFormed_comparison hpath ⟨htakes, ?_⟩
      simpa using hplain
  · rename_i htakes
    cases h
    exact Filter.wellFormed_comparison hpath htakes

theorem obeys_readAfter (hK : K.Lawful) {path : PropertyPath} (hpath : path.WellFormed)
    (operator : Comparator) : Obeys K (Admissible K.Word) (readAfter path operator) := by
  have hpresence : ∀ b, (Filter.presence path b).WellFormed := fun b =>
    Filter.Sane.wellFormed (f := .presence path b) hpath rfl
  unfold readAfter
  split
  · exact Obeys.pure (hpresence true)
  · exact Obeys.pure (hpresence false)
  · exact (obeys_readTimeRange hK hpath).bind fun f hf => Obeys.pure hf
  · exact obeys_readEntity hK path _
  · exact (obeys_require hK _ _ _).bind fun _ _ => (obeys_readWords hK).bind fun ws hws =>
      Obeys.pure hws
  · exact (obeys_require hK _ _ _).bind fun _ _ => (obeys_readWords hK).bind fun ws hws =>
      Obeys.pure hws
  · exact (obeys_require hK _ _ _).bind fun _ _ => (obeys_readWords hK).bind fun ws hws =>
      Obeys.pure hws
  · exact obeys_readCategories hK hpath _
  · refine (obeys_readOperand hK).bind fun operand _ => ?_
    split
    · rename_i hf
      exact Obeys.pure (wellFormed_ofOperand hpath hf)
    · rename_i hcause
      exact Obeys.fail (hK.placeless (isPlaceless_of_ofOperand hcause))

theorem obeys_read (hK : K.Lawful) {first : Lexeme} (hfirst : K.lexeme first) :
    Obeys K (Admissible K.Word) (read first) :=
  (PropertyPath.obeys_read hK hfirst).bind fun _ hpath => (Comparator.obeys_read hK).bind fun _ _ =>
    obeys_readAfter hK hpath _

end Comparison

end CalendarQuery

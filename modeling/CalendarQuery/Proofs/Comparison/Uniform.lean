import CalendarQuery.Comparison.Reader
import CalendarQuery.Proofs.Token.Reader

/-!
# Comparisons are read alike

Whatever pairing of lexers is lawful, the readers that a comparison is made of are paired with
themselves: two runs read the same until they part. One lemma for each reader leads there; each
follows the text of its reader.

* `PropertyPath.paired_read`, `Comparison.paired_read`: paths and comparisons.
* `Comparison.alike_readNext`: two texts with the same tokens give the same comparison and leave the
  same tokens.
-/

namespace CalendarQuery

open Reader

variable {P : Pairing}

theorem Property.isPlaceless_of_lookup {word : String} {cause : QueryError}
    (h : Property.lookup word = .error cause) : cause.isPlaceless = true := by
  unfold Property.lookup at h
  split at h
  · cases h
  · cases h
    rfl

namespace PathSegment

theorem paired_readIndexed (hP : P.Lawful) (p : Property) :
    Paired P (readIndexed p) (readIndexed p) :=
  Paired.next_bind hP fun t _ _ ht => by
    cases t with
    | number n => exact Paired.pure _
    | quoted key => exact Paired.pure _
    | _ => exact Paired.fail (hP.unexpected _ ht) _

theorem paired_readIndex (hP : P.Lawful) (p : Property) :
    Paired P (readIndex p) (readIndex p) :=
  (paired_readIndexed hP p).bind fun _ => Paired.next_bind hP fun t _ _ ht => by
    by_cases h : t.isSymbol ']' = true
    · simp only [h, if_true]
      exact Paired.pure _
    · simp only [h]
      exact Paired.fail (hP.unexpected _ ht) _

theorem paired_readFirst (hP : P.Lawful) (word : String) :
    Paired P (readFirst word) (readFirst word) := by
  unfold readFirst
  cases hlookup : Property.lookup word with
  | error cause => exact Paired.fail (hP.placeless (Property.isPlaceless_of_lookup hlookup)) _
  | ok p =>
    simp only
    split
    · exact Paired.fail (hP.placeless rfl) _
    · refine (Paired.accept hP '[').bind fun b => ?_
      cases b with
      | true => exact paired_readIndex hP p
      | false => exact Paired.pure _

theorem paired_readFollowing (hP : P.Lawful) : Paired P readFollowing readFollowing :=
  Paired.next_bind hP fun t _ _ ht => by
    cases t with
    | word word =>
      simp only
      cases hlookup : Property.lookup word with
      | error cause => exact Paired.fail (hP.placeless (Property.isPlaceless_of_lookup hlookup)) _
      | ok p =>
        simp only
        split
        · refine Paired.peek_bind hP fun u _ _ _ => ?_
          by_cases h : u.isSymbol '[' = true
          · simp only [h, if_true]
            exact Paired.fail (hP.placeless rfl) _
          · simp only [h]
            exact Paired.pure _
        · exact Paired.fail (hP.misplaced _ ht rfl) _
    | _ => exact Paired.fail (hP.unexpected _ ht) _

theorem paired_readDotted (hP : P.Lawful) : Paired P readDotted readDotted :=
  (Paired.accept hP '.').bind fun b => by
    cases b with
    | true => exact (paired_readFollowing hP).bind fun _ => Paired.pure _
    | false => exact Paired.pure _

end PathSegment

namespace PropertyPath

theorem isPlaceless_of_checkDepth {path : PropertyPath} {cause : QueryError}
    (h : checkDepth path = .error cause) : cause.isPlaceless = true := by
  unfold checkDepth at h
  split at h
  · cases h
  · cases h
    rfl

theorem paired_read (hP : P.Lawful) {t : Token} {p p' : Nat} (ht : P.lexeme ⟨t, p⟩ ⟨t, p'⟩) :
    Paired P (read ⟨t, p⟩) (read ⟨t, p'⟩) := by
  cases t with
  | word word =>
    simp only [read]
    split
    · refine Paired.peek_bind hP fun u _ _ _ => ?_
      by_cases h : u.isSymbol '.' = true
      · simp only [h, if_true]
        exact Paired.fail (hP.placeless rfl) _
      · simp only [h]
        exact Paired.pure _
    · refine (PathSegment.paired_readFirst hP word).bind fun head => ?_
      refine (Paired.many (PathSegment.paired_readDotted hP)).bind fun tail => ?_
      cases hdepth : checkDepth ⟨head, tail⟩ with
      | ok path => exact Paired.pure _
      | error cause => exact Paired.fail (hP.placeless (isPlaceless_of_checkDepth hdepth)) _
  | _ => exact Paired.fail (hP.unexpected _ ht) _

end PropertyPath

namespace Comparator

theorem paired_readNegated (hP : P.Lawful) : Paired P readNegated readNegated :=
  Paired.next_bind hP fun t _ _ ht => by
    simp only
    split
    · exact Paired.pure _
    · exact Paired.pure _
    · exact Paired.fail (hP.unexpected _ ht) _

theorem paired_readOrEqual (hP : P.Lawful) (c d : Comparator) :
    Paired P (readOrEqual c d) (readOrEqual c d) :=
  (Paired.accept hP '=').bind fun b => by
    cases b with
    | true => exact Paired.pure _
    | false => exact Paired.pure _

theorem paired_read (hP : P.Lawful) : Paired P read read :=
  Paired.next_bind hP fun t _ _ ht => by
    simp only
    split
    · exact Paired.pure _
    · exact Paired.pure _
    · exact paired_readNegated hP
    · exact paired_readOrEqual hP _ _
    · exact paired_readOrEqual hP _ _
    · rename_i word
      cases ofWord? word with
      | some c => exact Paired.pure _
      | none => exact Paired.fail (hP.unexpected _ ht) _
    · exact Paired.fail (hP.unexpected _ ht) _

end Comparator

namespace Comparison

theorem paired_readText (hP : P.Lawful) : Paired P readText readText :=
  Paired.next_bind hP fun t _ _ ht => by
    cases t with
    | quoted text => exact Paired.pure _
    | _ => exact Paired.fail (hP.unexpected _ ht) _

theorem paired_readOperand (hP : P.Lawful) : Paired P readOperand readOperand :=
  Paired.next_bind hP fun t _ _ ht => by
    cases t with
    | quoted text => exact Paired.pure _
    | number n => exact Paired.pure _
    | _ => exact Paired.fail (hP.unexpected _ ht) _

theorem paired_readFirstWord (hP : P.Lawful) : Paired P readFirstWord readFirstWord :=
  Paired.next_bind hP fun t _ _ ht => by
    simp only
    split
    · exact Paired.pure _
    · exact Paired.fail (hP.placeless rfl) _
    · exact Paired.fail (hP.placeless rfl) _
    · exact Paired.fail (hP.unexpected _ ht) _

theorem paired_readFurtherWord (hP : P.Lawful) : Paired P readFurtherWord readFurtherWord :=
  Paired.next_bind hP fun t _ _ ht => by
    simp only
    split
    · exact Paired.pure _
    · exact Paired.fail (hP.placeless rfl) _
    · exact Paired.fail (hP.unexpected _ ht) _

theorem paired_readListItem (hP : P.Lawful) : Paired P readListItem readListItem :=
  Paired.next_bind hP fun t _ _ ht => by
    simp only
    split
    · exact (paired_readFurtherWord hP).bind fun _ => Paired.pure _
    · exact Paired.pure _
    · exact Paired.fail (hP.placeless rfl) _
    · exact Paired.fail (hP.unexpected _ ht) _

theorem paired_readWords (hP : P.Lawful) : Paired P readWords readWords :=
  Paired.next_bind hP fun t _ _ ht => by
    simp only
    split
    · exact Paired.pure _
    · exact (paired_readFirstWord hP).bind fun _ =>
        (Paired.many (paired_readListItem hP)).bind fun _ => Paired.pure _
    · exact Paired.fail (hP.unexpected _ ht) _

theorem isPlaceless_of_boundOfText {text : String} {cause : QueryError}
    (h : boundOfText text = .error cause) : cause.isPlaceless = true := by
  simp only [boundOfText] at h
  split at h
  · cases h
  · split at h
    · cases h
    · cases h
      rfl

theorem paired_readBound (hP : P.Lawful) : Paired P readBound readBound :=
  Paired.peek_bind hP fun t _ _ _ => by
    cases t with
    | quoted text =>
      refine Paired.next_bind hP fun _ _ _ _ => ?_
      cases hbound : boundOfText text with
      | ok bound => exact Paired.pure _
      | error cause => exact Paired.fail (hP.placeless (isPlaceless_of_boundOfText hbound)) _
    | _ => exact Paired.pure _

theorem paired_readTimeRange (hP : P.Lawful) (path : PropertyPath) :
    Paired P (readTimeRange path) (readTimeRange path) :=
  (paired_readBound hP).bind fun first => Paired.next_bind hP fun t _ _ ht => by
    by_cases h : t.isKeyword "to" = true
    · simp only [h, if_true]
      refine (paired_readBound hP).bind fun last => ?_
      split
      · exact Paired.fail (hP.placeless rfl) _
      · exact Paired.pure _
    · simp only [h]
      exact Paired.fail (hP.unexpected _ ht) _

theorem paired_require (hP : P.Lawful) (allowed : List Comparator) (operator : Comparator)
    (path : PropertyPath) : Paired P (require allowed operator path)
      (require allowed operator path) := by
  unfold require
  split
  · exact Paired.pure _
  · exact Paired.fail (hP.placeless rfl) _

theorem paired_readEntity (hP : P.Lawful) (path : PropertyPath) (operator : Comparator) :
    Paired P (readEntity path operator) (readEntity path operator) :=
  (paired_require hP _ _ _).bind fun _ => (paired_readText hP).bind fun name => by
    cases EntityKind.ofName? name with
    | some kind => exact Paired.pure _
    | none => exact Paired.fail (hP.placeless rfl) _

theorem isPlaceless_of_eachWord {path : PropertyPath} {operator : Comparator}
    {words : List String} {cause : QueryError} (h : eachWord path operator words = .error cause) :
    cause.isPlaceless = true := by
  unfold eachWord at h
  split at h
  · cases h
  · cases h
    rfl

theorem paired_readCategories (hP : P.Lawful) (path : PropertyPath) (operator : Comparator) :
    Paired P (readCategories path operator) (readCategories path operator) := by
  refine (paired_require hP _ _ _).bind fun _ => ?_
  split
  · exact (paired_readWords hP).bind fun _ => Paired.pure _
  · split
    · refine (paired_readWords hP).bind fun words => ?_
      cases heach : eachWord path operator words with
      | ok f => exact Paired.pure _
      | error cause => exact Paired.fail (hP.placeless (isPlaceless_of_eachWord heach)) _
    · split
      · exact Paired.fail (hP.placeless rfl) _
      · refine (paired_readText hP).bind fun name => ?_
        split
        · exact Paired.pure _
        · exact Paired.pure _

theorem isPlaceless_of_ofOperand {path : PropertyPath} {operator : Comparator} {operand : Operand}
    {cause : QueryError} (h : ofOperand path operator operand = .error cause) :
    cause.isPlaceless = true := by
  unfold ofOperand at h
  split at h
  · cases h
    rfl
  · split at h
    · cases h
      rfl
    · cases h
  · cases h

theorem paired_readAfter (hP : P.Lawful) (path : PropertyPath) (operator : Comparator) :
    Paired P (readAfter path operator) (readAfter path operator) := by
  unfold readAfter
  split
  · exact Paired.pure _
  · exact Paired.pure _
  · exact (paired_readTimeRange hP path).bind fun _ => Paired.pure _
  · exact paired_readEntity hP path _
  · exact (paired_require hP _ _ _).bind fun _ => (paired_readWords hP).bind fun _ => Paired.pure _
  · exact (paired_require hP _ _ _).bind fun _ => (paired_readWords hP).bind fun _ => Paired.pure _
  · exact (paired_require hP _ _ _).bind fun _ => (paired_readWords hP).bind fun _ => Paired.pure _
  · exact paired_readCategories hP path _
  · refine (paired_readOperand hP).bind fun operand => ?_
    split
    · exact Paired.pure _
    · rename_i hoperand
      exact Paired.fail (hP.placeless (isPlaceless_of_ofOperand hoperand)) _

theorem paired_read (hP : P.Lawful) {t : Token} {p p' : Nat} (ht : P.lexeme ⟨t, p⟩ ⟨t, p'⟩) :
    Paired P (read ⟨t, p⟩) (read ⟨t, p'⟩) :=
  (PropertyPath.paired_read hP ht).bind fun path => (Comparator.paired_read hP).bind fun operator =>
    paired_readAfter hP path operator

/-- The comparison that starts with the next token. -/
def readNext : Reader Comparison := do read (← next)

theorem paired_readNext (hP : P.Lawful) : Paired P readNext readNext :=
  Paired.next_bind hP fun _ _ _ ht => paired_read hP ht

theorem alike_readNext : Alike readNext readNext :=
  alike_of_paired (paired_readNext Pairing.lawful_sameTokens)

end Comparison

end CalendarQuery

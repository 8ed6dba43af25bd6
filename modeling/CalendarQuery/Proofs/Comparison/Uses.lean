import CalendarQuery.Comparison.Reader
import CalendarQuery.Proofs.Token.Uses

/-!
# What reading a comparison does with a lexer

Paths and comparisons are read by asking for lexemes and looking at them, wherever the reading starts
and however it ends. One lemma for each reader says that it has a trace.

* `PropertyPath.traced_read`, `Comparison.traced_read`: the readers of paths and of comparisons.
-/

namespace CalendarQuery

open Reader

/-! ## Paths -/

namespace PathSegment

theorem traced_readIndexed (p : Property) : Traced (readIndexed p) :=
  Traced.next.bind fun _ => by
    split
    · exact Traced.pure _
    · exact Traced.pure _
    · exact Traced.fail _

theorem traced_readIndex (p : Property) : Traced (readIndex p) :=
  (traced_readIndexed p).bind fun _ => Traced.next.bind fun _ => by
    split
    · exact Traced.pure _
    · exact Traced.fail _

theorem traced_readFirst (word : String) : Traced (readFirst word) := by
  unfold readFirst
  split
  · exact Traced.fail _
  · rename_i p _
    split
    · exact Traced.fail _
    · refine (Traced.accept '[').bind fun _ => ?_
      split
      · exact traced_readIndex p
      · exact Traced.pure _

theorem traced_readFollowing : Traced readFollowing :=
  Traced.next.bind fun _ => by
    split
    · split
      · exact Traced.fail _
      · split
        · refine Traced.peek.bind fun _ => ?_
          split
          · exact Traced.fail _
          · exact Traced.pure _
        · exact Traced.fail _
    · exact Traced.fail _

theorem traced_readDotted : Traced readDotted :=
  (Traced.accept '.').bind fun _ => by
    split
    · exact traced_readFollowing.bind fun _ => Traced.pure _
    · exact Traced.pure _

end PathSegment

theorem PropertyPath.traced_read (first : Lexeme) : Traced (PropertyPath.read first) := by
  unfold read
  split
  · split
    · refine Traced.peek.bind fun _ => ?_
      split
      · exact Traced.fail _
      · exact Traced.pure _
    · refine (PathSegment.traced_readFirst _).bind fun _ => ?_
      refine (Traced.many PathSegment.traced_readDotted).bind fun _ => ?_
      split
      · exact Traced.pure _
      · exact Traced.fail _
  · exact Traced.fail _

/-! ## Operators -/

namespace Comparator

theorem traced_readNegated : Traced readNegated :=
  Traced.next.bind fun _ => by
    split
    · exact Traced.pure _
    · exact Traced.pure _
    · exact Traced.fail _

theorem traced_readOrEqual (plain orEqual : Comparator) : Traced (readOrEqual plain orEqual) :=
  (Traced.accept '=').bind fun _ => by
    split
    · exact Traced.pure _
    · exact Traced.pure _

theorem traced_read : Traced read :=
  Traced.next.bind fun _ => by
    split
    · exact Traced.pure _
    · exact Traced.pure _
    · exact traced_readNegated
    · exact traced_readOrEqual _ _
    · exact traced_readOrEqual _ _
    · split
      · exact Traced.pure _
      · exact Traced.fail _
    · exact Traced.fail _

end Comparator

/-! ## Comparisons -/

namespace Comparison

theorem traced_readText : Traced readText :=
  Traced.next.bind fun _ => by
    split
    · exact Traced.pure _
    · exact Traced.fail _

theorem traced_readOperand : Traced readOperand :=
  Traced.next.bind fun _ => by
    split
    · exact Traced.pure _
    · exact Traced.pure _
    · exact Traced.fail _

theorem traced_readFirstWord : Traced readFirstWord :=
  Traced.next.bind fun _ => by
    split
    · exact Traced.pure _
    · exact Traced.fail _
    · exact Traced.fail _
    · exact Traced.fail _

theorem traced_readFurtherWord : Traced readFurtherWord :=
  Traced.next.bind fun _ => by
    split
    · exact Traced.pure _
    · exact Traced.fail _
    · exact Traced.fail _

theorem traced_readListItem : Traced readListItem :=
  Traced.next.bind fun _ => by
    split
    · exact traced_readFurtherWord.bind fun _ => Traced.pure _
    · exact Traced.pure _
    · exact Traced.fail _
    · exact Traced.fail _

theorem traced_readWords : Traced readWords :=
  Traced.next.bind fun _ => by
    split
    · exact Traced.pure _
    · exact traced_readFirstWord.bind fun _ => (Traced.many traced_readListItem).bind fun _ =>
        Traced.pure _
    · exact Traced.fail _

theorem traced_readBound : Traced readBound :=
  Traced.peek.bind fun _ => by
    split
    · refine Traced.next.bind fun _ => ?_
      split
      · exact Traced.pure _
      · exact Traced.fail _
    · exact Traced.pure _

theorem traced_readTimeRange (path : PropertyPath) : Traced (readTimeRange path) :=
  traced_readBound.bind fun _ => Traced.next.bind fun _ => by
    split
    · refine traced_readBound.bind fun _ => ?_
      split
      · exact Traced.fail _
      · exact Traced.pure _
    · exact Traced.fail _

theorem traced_require (allowed : List Comparator) (operator : Comparator)
    (path : PropertyPath) : Traced (require allowed operator path) := by
  unfold require
  split
  · exact Traced.pure _
  · exact Traced.fail _

theorem traced_readEntity (path : PropertyPath) (operator : Comparator) :
    Traced (readEntity path operator) :=
  (traced_require _ _ _).bind fun _ => traced_readText.bind fun _ => by
    split
    · exact Traced.pure _
    · exact Traced.fail _

theorem traced_readCategories (path : PropertyPath) (operator : Comparator) :
    Traced (readCategories path operator) :=
  (traced_require _ _ _).bind fun _ => by
    split
    · exact traced_readWords.bind fun _ => Traced.pure _
    · split
      · refine traced_readWords.bind fun _ => ?_
        split
        · exact Traced.pure _
        · exact Traced.fail _
      · split
        · exact Traced.fail _
        · refine traced_readText.bind fun _ => ?_
          split
          · exact Traced.pure _
          · exact Traced.pure _

theorem traced_readAfter (path : PropertyPath) (operator : Comparator) :
    Traced (readAfter path operator) := by
  unfold readAfter
  split
  · exact Traced.pure _
  · exact Traced.pure _
  · exact (traced_readTimeRange path).bind fun _ => Traced.pure _
  · exact traced_readEntity _ _
  · exact (traced_require _ _ _).bind fun _ => traced_readWords.bind fun _ => Traced.pure _
  · exact (traced_require _ _ _).bind fun _ => traced_readWords.bind fun _ => Traced.pure _
  · exact (traced_require _ _ _).bind fun _ => traced_readWords.bind fun _ => Traced.pure _
  · exact traced_readCategories _ _
  · refine traced_readOperand.bind fun _ => ?_
    split
    · exact Traced.pure _
    · exact Traced.fail _

theorem traced_read (first : Lexeme) : Traced (read first) :=
  (PropertyPath.traced_read first).bind fun _ => Comparator.traced_read.bind fun _ =>
    traced_readAfter _ _

end Comparison

end CalendarQuery

import CalendarQuery.Proofs.Comparison.Reading
import CalendarQuery.Proofs.Comparison.Uses
import CalendarQuery.Sort

/-!
# What is known of sort keys that have been read

* `SortKey.obeys_readAll`: the keys of a sort expression, whatever is known while they are read.
* `SortKey.paired_readAll`: two sort expressions are read alike until their runs part.
* `SortKey.traced_readAll`: what reading a sort expression does with the lexer has a trace.
* `parseSort_wellFormed`: the paths of the keys of a sort expression are well formed.
-/

namespace CalendarQuery

open Reader

namespace SortKey

variable {K : Reading} {P : Pairing}

theorem obeys_readDirection (hK : K.Lawful) : Obeys K (fun _ => True) readDirection :=
  (Obeys.next hK).bind fun x hx => by
    split
    · exact Obeys.pure trivial
    · split
      · exact Obeys.pure trivial
      · exact Obeys.fail (hK.unexpected _ hx)

theorem obeys_read (hK : K.Lawful) (ascending : Bool) :
    Obeys K (fun k => k.path.WellFormed) (read ascending) :=
  (Obeys.next hK).bind fun x hx => (PropertyPath.obeys_read hK hx).bind fun path hpath =>
    (Obeys.accept hK ':').bind fun _ _ => by
      split
      · exact (obeys_readDirection hK).bind fun _ _ => Obeys.pure hpath
      · exact Obeys.pure hpath

theorem obeys_readFurther (hK : K.Lawful) (ascending : Bool) :
    Obeys K (fun o => ∀ k ∈ o, k.path.WellFormed) (readFurther ascending) :=
  (Obeys.next hK).bind fun x hx => by
    split
    · exact (obeys_read hK ascending).bind fun k hk => Obeys.pure (by simpa using hk)
    · exact Obeys.pure (by simp)
    · exact Obeys.fail (hK.unexpected _ hx)

theorem obeys_readAll (hK : K.Lawful) (ascending : Bool) :
    Obeys K (fun ks => ∀ k ∈ ks, k.path.WellFormed) (readAll ascending) :=
  (obeys_read hK ascending).bind fun _ hk =>
    (Obeys.many (obeys_readFurther hK ascending)).bind fun _ hks =>
      Obeys.pure (List.forall_mem_cons.mpr ⟨hk, hks⟩)

theorem paired_readDirection (hP : P.Lawful) : Paired P readDirection readDirection :=
  Paired.next_bind hP fun t _ _ ht => by
    simp only
    split
    · exact Paired.pure _
    · split
      · exact Paired.pure _
      · exact Paired.fail (hP.unexpected _ ht) _

theorem paired_read (hP : P.Lawful) (ascending : Bool) :
    Paired P (read ascending) (read ascending) :=
  Paired.next_bind hP fun _ _ _ ht => (PropertyPath.paired_read hP ht).bind fun path =>
    (Paired.accept hP ':').bind fun b => by
      cases b with
      | true => exact (paired_readDirection hP).bind fun _ => Paired.pure _
      | false => exact Paired.pure _

theorem paired_readFurther (hP : P.Lawful) (ascending : Bool) :
    Paired P (readFurther ascending) (readFurther ascending) :=
  Paired.next_bind hP fun t _ _ ht => by
    simp only
    split
    · exact (paired_read hP ascending).bind fun _ => Paired.pure _
    · exact Paired.pure _
    · exact Paired.fail (hP.unexpected _ ht) _

theorem paired_readAll (hP : P.Lawful) (ascending : Bool) :
    Paired P (readAll ascending) (readAll ascending) :=
  (paired_read hP ascending).bind fun _ =>
    (Paired.many (paired_readFurther hP ascending)).bind fun _ => Paired.pure _

theorem traced_readDirection : Traced readDirection :=
  Traced.next.bind fun _ => by
    split
    · exact Traced.pure _
    · split
      · exact Traced.pure _
      · exact Traced.fail _

theorem traced_read (ascending : Bool) : Traced (read ascending) :=
  Traced.next.bind fun _ => (PropertyPath.traced_read _).bind fun _ => (Traced.accept ':').bind
    fun _ => by
      split
      · exact traced_readDirection.bind fun _ => Traced.pure _
      · exact Traced.pure _

theorem traced_readFurther (ascending : Bool) : Traced (readFurther ascending) :=
  Traced.next.bind fun _ => by
    split
    · exact (traced_read ascending).bind fun _ => Traced.pure _
    · exact Traced.pure _
    · exact Traced.fail _

theorem traced_readAll (ascending : Bool) : Traced (readAll ascending) :=
  (traced_read ascending).bind fun _ => (Traced.many (traced_readFurther ascending)).bind fun _ =>
    Traced.pure _

end SortKey

theorem parseSort_wellFormed {limits : Limits} {text : String} {keys : List SortKey}
    (h : parseSort limits text = .ok keys) : ∀ k ∈ keys, k.path.WellFormed := by
  unfold parseSort at h
  split at h
  · cases h
  · split at h
    · cases h
      simp
    · cases hread : SortKey.readAll limits.defaultSortAscending (Lexer.ofString text) with
      | error cause =>
        rw [hread] at h
        cases h
      | ok r =>
        rw [hread] at h
        cases h
        obtain ⟨keys, l'⟩ := r
        exact ((SortKey.obeys_readAll (Reading.lawful_quoting fun _ => True) _ _
          (Reading.quoting_ofString text)).1 keys l' hread).1

end CalendarQuery

import CalendarQuery.Comparison.Reader

/-!
# Written names read back

Names are looked up in tables, letter case ignored. A name reads back because no two names of a
table differ in letter case only (`find?_of_nodup_keys`).

* `Property.ofName?_spelling`: properties.
* `EntityKind.ofName?_name`: kinds of entities.
* `Comparator.ofWord?_symbol`: the operators that are words.
-/

namespace CalendarQuery

namespace Text

/-- What a name is compared by. -/
def nameKey (name : String) : List Char := name.toList.map Char.toLower

theorem sameName_eq (s t : String) : sameName s t = (nameKey s == nameKey t) := by
  rw [Bool.eq_iff_iff]
  simp [sameName, lower, nameKey, ← String.toList_inj]

/-- In a list whose entries have different keys, an entry is found by its key. -/
theorem find?_of_nodup_keys {α : Type} {key : α → List Char} {xs : List α} {a : α}
    (h : (xs.map key).Nodup) (ha : a ∈ xs) : xs.find? (fun x => key x == key a) = some a := by
  induction xs with
  | nil => cases ha
  | cons x xs ih =>
    rw [List.map_cons, List.nodup_cons] at h
    rcases List.mem_cons.mp ha with rfl | ha
    · simp
    · have hne : key x ≠ key a := fun he => h.1 (he ▸ List.mem_map_of_mem ha)
      rw [List.find?_cons_of_neg (by simpa using hne), ih h.2 ha]

end Text

open Text

namespace Property

theorem nodup_table : (table.map fun entry => nameKey entry.1).Nodup := by decide

theorem ofName?_spelling (p : Property) : ofName? p.spelling = some p := by
  have hmem : (p.spelling, p) ∈ table := by
    simp only [table, List.mem_flatMap]
    exact ⟨p, mem_all p, by simp⟩
  simp only [ofName?, sameName_eq]
  rw [find?_of_nodup_keys nodup_table hmem]
  rfl

theorem lookup_eq_ok {word : String} {p : Property} :
    lookup word = .ok p ↔ ofName? word = some p := by
  unfold lookup
  cases ofName? word <;> simp

/-- No property is named by the word for the uid of a category. -/
theorem sameName_categoryUidWord_of_ofName? {word : String} {p : Property}
    (h : ofName? word = some p) : sameName word categoryUidWord = false := by
  have hall : (table.all fun entry => !sameName entry.1 categoryUidWord) = true := by
    simp only [sameName_eq]
    decide
  obtain ⟨entry, hentry, -⟩ := Option.map_eq_some_iff.mp h
  have hne := List.all_eq_true.mp hall entry (List.mem_of_find?_eq_some hentry)
  have hsame := List.find?_some hentry
  simp only [sameName_eq, beq_iff_eq, Bool.not_eq_true', beq_eq_false_iff_ne] at hne hsame ⊢
  rwa [← hsame]

theorem ofWord_spelling (p : Property) : Token.ofWord p.spelling.toList = .word p.spelling := by
  cases p <;> decide

theorem spelling_ne_nil (p : Property) : p.spelling.toList ≠ [] := by
  cases p <;> decide

theorem isWordChar_of_mem_spelling (p : Property) :
    ∀ c ∈ p.spelling.toList, Token.isWordChar c = true := by
  have hall : p.spelling.toList.all Token.isWordChar = true := by cases p <;> decide
  exact List.all_eq_true.mp hall

end Property

namespace EntityKind

theorem nodup_names : (all.map fun k => nameKey k.name).Nodup := by decide

theorem ofName?_name (k : EntityKind) : ofName? k.name = some k := by
  have htask : sameName k.name "task" = false := by
    rw [sameName_eq]
    cases k <;> decide
  have hcomm : ∀ l : EntityKind, sameName k.name l.name = (nameKey l.name == nameKey k.name) :=
    fun l => by rw [sameName_comm, sameName_eq]
  simp only [ofName?, htask, hcomm, Bool.false_eq_true, if_false]
  exact find?_of_nodup_keys nodup_names (mem_all k)

end EntityKind

namespace Comparator

/-- An operator that is a word reads back. -/
theorem ofWord?_symbol {c : Comparator}
    (h : c ∈ [isDefined, notDefined, inTimeRange, startsWith, indexed]) :
    ofWord? c.symbol = some c := by
  have hnodup : ([isDefined, notDefined, inTimeRange, startsWith, indexed].map
      fun c => nameKey c.symbol).Nodup := by decide
  have hcomm : ∀ d : Comparator, sameName c.symbol d.symbol =
      (nameKey d.symbol == nameKey c.symbol) := fun d => by rw [sameName_comm, sameName_eq]
  simp only [ofWord?, hcomm]
  exact find?_of_nodup_keys hnodup h

end Comparator

end CalendarQuery

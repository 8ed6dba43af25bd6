import CalendarQuery.Hierarchy.Store
import CalendarQuery.Proofs.Compiler

/-!
# Canonical text reads back

* `Compiler.filter_text`: the canonical text of a filter compiles to the normal form of the filter.
* `Compiler.filter_text_sampleTree`: a tree with a named group, groups of one filter and groups of
  one operator inside each other, as an instance.
-/

namespace CalendarQuery.Compiler

open Grammar CalendarQuery.Filter

/-- The canonical text of a filter compiles to the normal form of the filter, if it is not too long
and not nested too deep; it asks for no memo and makes none. -/
theorem filter_text (c : Compiler) (f : Filter) (explicit : Bool) (source : String) (m : Memos)
    (hf : f.Restorable c.hierarchy) (hlength : c.limits.admits f.text = true)
    (hnesting : f.parentheses ≤ maxNesting) :
    c.filter f.text explicit source m = (.filter f.normal, m) := by
  obtain ⟨level, hs, hn, hd⟩ :=
    exists_expression (c := c.selection explicit c.limits.maxAliasDepth []) hf
  rw [filter_eq_filter, compile, compileWithin_eq_ok]
  exact ⟨hlength, level, hs, by omega, hd m⟩

/-- A store with one category. -/
def homeStore : Store := ⟨[], [⟨"c1", "Home", none⟩], []⟩

/-- The last second of 2016, a leap second. -/
def leapSecond : Stamp :=
  { Stamp.midnight ⟨2016, 12, 31, by decide, by decide, by decide⟩ with
    hour := 23, minute := 59, second := 60
    hour_lt := by decide, minute_lt := by decide, second_le := by decide }

/-- A comparison with a text that holds quotes and a parenthesis, and an open time range. -/
def sampleLeaves : List Filter :=
  [comparison (.single .summary) .like (.text "a) & \"b\""),
    .timeRange (.pair .dtstart .tzid) (some leapSecond) none]

/-- An indexed path and a negated category. -/
def otherLeaves : List Filter :=
  [.presence ⟨⟨.attendee, some (-2), none⟩, [.plain .cn]⟩ true,
    comparison (.pair .categories .uid) .notEqual (.text "c1")]

/-- The same leaves under a name, under groups of one filter and in groups of one operator. -/
def sampleTree : Filter :=
  .and (some "/work") (.or [.and none sampleLeaves] :: [.and none otherLeaves])

/-- The groups of the sample are written in parentheses, and read back as a single group. -/
theorem filter_text_sampleTree :
    (sampleTree.Restorable homeStore.hierarchy ∧
      Limits.standard.admits sampleTree.text = true ∧ sampleTree.parentheses ≤ maxNesting) ∧
    (⟨homeStore.hierarchy, .standard⟩ : Compiler).filter sampleTree.text false "" .empty =
      (.filter (.and none (sampleLeaves ++ otherLeaves)), .empty) := by
  have hrestorable : sampleTree.Restorable homeStore.hierarchy := by
    refine ⟨by simp, ⟨by simp, ⟨by simp [sampleLeaves], ?_, ?_, trivial⟩, trivial⟩,
      ⟨by simp [otherLeaves], ?_, ?_, trivial⟩, trivial⟩
    · exact ⟨⟨⟨rfl, by decide, .inl rfl, by decide⟩, rfl, by decide, by simp,
        fun h => by cases h⟩, rfl⟩
    · exact ⟨⟨rfl, by decide, .inl rfl, by decide⟩, .inl rfl, by decide⟩
    · exact ⟨rfl, by decide, .inr rfl, by decide⟩
    · exact ⟨⟨⟨rfl, by decide, .inl rfl, by decide⟩, rfl, by decide, by simp,
        fun _ => ⟨by decide, "c1", rfl, .inr ⟨by decide, _, rfl⟩⟩⟩, rfl⟩
  have hlength : Limits.standard.admits sampleTree.text = true := by decide +kernel
  have hnesting : sampleTree.parentheses ≤ maxNesting := by decide
  exact ⟨⟨hrestorable, hlength, hnesting⟩,
    filter_text ⟨homeStore.hierarchy, .standard⟩ sampleTree false "" .empty hrestorable hlength
      hnesting⟩

end CalendarQuery.Compiler

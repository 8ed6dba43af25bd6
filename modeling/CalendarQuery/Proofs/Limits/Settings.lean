import CalendarQuery.Limits.Settings
import CalendarQuery.Proofs.Toml.Document

/-!
# Limits and their settings

* `Limits.Expressible`: the limits that can be written.
* `Limits.settings_of_expressible`, `Limits.ofRecord?_entries`: what is written reads back.
* `Limits.expressible_of_ofRecord?`: what has been read can be written.
-/

namespace CalendarQuery

open Toml

namespace Limits

/-- The numbers fit the format of documents. -/
structure Expressible (l : Limits) : Prop where
  depth : Fits l.maxAliasDepth
  length : Fits l.maxExpressionLength

/-- The limits as values of settings. -/
def entries (l : Limits) : List (String × Value) :=
  [("max_alias_depth", .integer (Int64.ofInt l.maxAliasDepth)),
    ("max_expression_length", .integer (Int64.ofInt l.maxExpressionLength)),
    ("default_sort_ascending", .boolean l.defaultSortAscending)]

/-- The lines that set the limits. -/
def lines (l : Limits) : List (Option Statement) :=
  l.entries.map fun entry => some (.pair ⟨[], entry.1⟩ entry.2)

/-- Limits that fit are written on lines. -/
theorem settings_of_expressible {l : Limits} (h : l.Expressible) :
    ∃ text, l.settings = .ok text ∧ Lines text.toList l.lines := by
  have hdepth : writeNatural l.maxAliasDepth = .ok _ := if_pos h.depth
  have hlength : writeNatural l.maxExpressionLength = .ok _ := if_pos h.length
  refine ⟨_, by rw [settings, hdepth, hlength]; rfl, ?_⟩
  have hsort := Lines.nil.pair "default_sort_ascending" (by decide)
    (writes_writeBoolean l.defaultSortAscending)
  have hlines := (hsort.pair "max_expression_length" (by decide) (writes_padded h.length)).pair
    "max_alias_depth" (by decide) (writes_padded h.depth)
  simpa [lines, entries] using hlines

theorem settings_of_not_expressible {l : Limits} (h : ¬l.Expressible) :
    l.settings = .error .outOfRange := by
  by_cases hdepth : Fits l.maxAliasDepth
  · have hlength : ¬Fits l.maxExpressionLength := fun hlength => h ⟨hdepth, hlength⟩
    have hfirst : writeNatural l.maxAliasDepth = .ok _ := if_pos hdepth
    have hsecond : writeNatural l.maxExpressionLength = .error .outOfRange := if_neg hlength
    rw [settings, hfirst, hsecond]
    rfl
  · have hfirst : writeNatural l.maxAliasDepth = .error .outOfRange := if_neg hdepth
    rw [settings, hfirst]
    rfl

/-- The values of the settings are read as the limits. -/
theorem ofRecord?_entries {l : Limits} (h : l.Expressible) :
    ofRecord? (.table l.entries) = some l := by
  simp [ofRecord?, entries, Value.record?, Record.withDefault, Record.field?,
    Value.natural?_ofInt h.depth, Value.natural?_ofInt h.length, Value.boolean?]

/-! ## What is read fits -/

theorem expressible_standard : Limits.standard.Expressible := ⟨by decide, by decide⟩

theorem expressible_of_ofRecord? {v : Value} {l : Limits} (h : ofRecord? v = some l) :
    l.Expressible := by
  simp only [ofRecord?, Option.bind_eq_bind, Option.bind_eq_some_iff, Option.pure_def,
    Option.some.injEq] at h
  obtain ⟨r, -, depth, hdepth, length, hlength, sort, -, rfl⟩ := h
  have hfits := fun v n => Value.fits_of_natural? (v := v) (n := n)
  exact ⟨Record.of_withDefault hfits expressible_standard.depth hdepth,
    Record.of_withDefault hfits expressible_standard.length hlength⟩

end Limits

end CalendarQuery

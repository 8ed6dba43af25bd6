import CalendarQuery.Limits
import CalendarQuery.Toml.Reader
import CalendarQuery.Toml.Writer

/-!
# Limits as settings

* `Limits.ofRecord?`: limits read from a record, in which any may be missing.
* `Limits.ofDocument?`: limits read from a document of their own.
* `Limits.settings`: the lines that set them.
-/

namespace CalendarQuery.Limits

/-- Limits from a record; a missing field has its standard value. -/
def ofRecord? (v : Toml.Value) : Option Limits := do
  let r ← v.record?
  return ⟨
    ← r.withDefault 0 "max_alias_depth" Toml.Value.natural? standard.maxAliasDepth,
    ← r.withDefault 1 "max_expression_length" Toml.Value.natural? standard.maxExpressionLength,
    ← r.withDefault 2 "default_sort_ascending" Toml.Value.boolean? standard.defaultSortAscending⟩

/-- Limits from a document. -/
def ofDocument? (text : String) : Option Limits := (Toml.Value.ofDocument? text).bind ofRecord?

/-- The lines that set the limits. -/
def settings (l : Limits) : Except Toml.WriteError String := do
  let depth ← Toml.writeNatural l.maxAliasDepth
  let length ← Toml.writeNatural l.maxExpressionLength
  return Toml.pairLine "max_alias_depth" depth ++ Toml.pairLine "max_expression_length" length ++
    Toml.pairLine "default_sort_ascending" (Toml.writeBoolean l.defaultSortAscending)

end CalendarQuery.Limits

import CalendarQuery.Hierarchy.Store
import CalendarQuery.Toml.Reader

/-!
# Stores as documents

`Store.ofDocument` reads a store from a document in the TOML format, which lists collections,
categories and views. Any of the lists may be missing.
-/

namespace CalendarQuery

/-- Why a document gives no store. -/
inductive DocumentError
  /-- It is not a document of this kind. -/
  | unreadable
  /-- A collection does not fit to those before it. -/
  | inconsistent (cause : StoreError)
  deriving DecidableEq, Repr

/-- A collection from a record. -/
def Collection.ofRecord? (v : Toml.Value) : Option Collection := do
  let r ← v.record?
  return {
    path := ← r.required 0 "path" Toml.Value.text?
    kind := ← r.required 1 "kind" (Toml.Value.choice? CollectionKind.ofName?)
    filter := ← r.optional 2 "filter" Toml.Value.text?
    target := ← r.optional 3 "target" Toml.Value.text?
    origin := none
    display := ← r.withDefault 4 "display" Toml.Value.boolean? true }

/-- A category from a record. -/
def Category.ofRecord? (v : Toml.Value) : Option Category := do
  let r ← v.record?
  return {
    uid := ← r.required 0 "uid" Toml.Value.text?
    name := ← r.required 1 "name" Toml.Value.text?
    href := ← r.optional 2 "href" Toml.Value.text? }

/-- A view from a record. -/
def View.ofRecord? (v : Toml.Value) : Option View := do
  let r ← v.record?
  return {
    name := ← r.required 0 "name" Toml.Value.text?
    collections := ← r.withDefault 1 "collections" (Toml.Value.list? Toml.Value.text?) [] }

namespace Store

/-- The collections, categories and views that a document lists. -/
def listed? (text : String) : Option (List Collection × List Category × List View) := do
  let r ← (← Toml.Value.ofDocument? text).record?
  return (
    ← r.withDefault 0 "collections" (Toml.Value.list? Collection.ofRecord?) [],
    ← r.withDefault 1 "categories" (Toml.Value.list? Category.ofRecord?) [],
    ← r.withDefault 2 "views" (Toml.Value.list? View.ofRecord?) [])

/-- The store that a document describes. -/
def ofDocument (text : String) : Except DocumentError Store :=
  match listed? text with
  | none => .error .unreadable
  | some (collections, categories, views) =>
    match empty.addAll collections with
    | .error cause => .error (.inconsistent cause)
    | .ok store => .ok { store with categories, views }

end Store

end CalendarQuery

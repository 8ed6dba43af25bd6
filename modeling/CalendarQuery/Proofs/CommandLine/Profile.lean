import CalendarQuery.CommandLine.Profile
import CalendarQuery.Proofs.Limits.Settings

/-!
# Profiles and their documents

* `Profile.Expressible`: the profiles that have a document, among them all that have been read.
* `Profile.ofDocument?_document`: a profile is read back from its document.
* `Profile.Sets`: one key is set to the value that a text spells, and nothing else is changed.
* `Profile.set_cases`, `Profile.Sets.commute`: when a key can be set, and in which order.
-/

namespace CalendarQuery

open Toml

namespace CommandLine.Profile

/-- The profile as values of settings. -/
def entries (p : Profile) : List (String × Value) :=
  ("version", .integer (Int64.ofInt version)) ::
    (p.hierarchy.toList.map fun path => ("hierarchy", .text path)) ++
    [("compiler", .table p.limits.entries)]

/-- The lines of the document. -/
def lines (p : Profile) : List (Option Statement) :=
  some (.pair ⟨[], "version"⟩ (.integer (Int64.ofInt version))) ::
    (p.hierarchy.toList.map fun path => some (.pair ⟨[], "hierarchy"⟩ (.text path))) ++
    none :: some (.table ⟨[], "compiler"⟩) :: p.limits.lines

/-- The statements of the document make up a table of the values. -/
theorem addAll_lines (p : Profile) : ∃ draft,
    Draft.empty.addAll (p.lines.filterMap id) = some draft ∧
    Entries.toValues draft.root = p.entries := by
  obtain ⟨hierarchy, limits⟩ := p
  cases hierarchy with
  | none => exact ⟨_, rfl, rfl⟩
  | some path => exact ⟨_, rfl, rfl⟩

/-- The document, given the lines of the limits. -/
def written (p : Profile) (settings : String) : String :=
  pairLine "version" (Text.padded 1 version) ++
    (match p.hierarchy with
      | some path => pairLine "hierarchy" (writeText path)
      | none => "") ++
    "\n" ++ headerLine "compiler" ++ settings

theorem document_eq (p : Profile) : p.document = p.limits.settings.map p.written := rfl

theorem lines_written {p : Profile} {settings : String} (h : Lines settings.toList p.limits.lines) :
    Lines (p.written settings).toList p.lines := by
  have hcompiler := (h.header "compiler" (by decide)).empty
  have hversion : Fits version := by decide
  cases hp : p.hierarchy with
  | none =>
    simpa [written, lines, hp] using
      hcompiler.pair "version" (by decide) (writes_padded hversion)
  | some path =>
    have hpath := hcompiler.pair "hierarchy" (by decide) (writes_writeText path)
    simpa [written, lines, hp] using hpath.pair "version" (by decide) (writes_padded hversion)

/-- The numbers of the profile fit the format of documents. -/
def Expressible (p : Profile) : Prop := p.limits.Expressible

/-- The lines of a profile are read as the profile. -/
theorem ofDocument?_of_lines {p : Profile} {text : String} (h : p.Expressible)
    (hlines : Lines text.toList p.lines) : ofDocument? text = some p := by
  obtain ⟨draft, hdraft, hvalues⟩ := addAll_lines p
  have hvalue := Value.ofDocument?_of_lines hlines hdraft
  have hlimits := Limits.ofRecord?_entries h
  have hversion : version? (.integer (Int64.ofInt version)) = some version := by decide
  rw [hvalues] at hvalue
  obtain ⟨hierarchy, limits⟩ := p
  cases hierarchy with
  | none =>
    simp [ofDocument?, hvalue, entries, Value.record?, Record.withDefault, Record.optional,
      Record.field?, hversion, hlimits]
  | some path =>
    simp [ofDocument?, hvalue, entries, Value.record?, Record.withDefault, Record.optional,
      Record.field?, hversion, hlimits, Value.text?]

/-- A profile whose numbers fit has a document, from which it is read back. -/
theorem document_of_expressible {p : Profile} (h : p.Expressible) :
    ∃ text, p.document = .ok text ∧ ofDocument? text = some p := by
  obtain ⟨settings, hsettings, hlimits⟩ := Limits.settings_of_expressible h
  have hdocument : p.document = .ok (p.written settings) := by
    rw [document_eq, hsettings]
    rfl
  exact ⟨_, hdocument, ofDocument?_of_lines h (lines_written hlimits)⟩

theorem document_of_not_expressible {p : Profile} (h : ¬p.Expressible) :
    p.document = .error .outOfRange := by
  rw [document_eq, Limits.settings_of_not_expressible h]
  rfl

/-- A profile is read back from its document. -/
theorem ofDocument?_document {p : Profile} {text : String} (h : p.document = .ok text) :
    ofDocument? text = some p := by
  by_cases hp : p.Expressible
  · obtain ⟨text', htext, hread⟩ := document_of_expressible hp
    cases h.symm.trans htext
    exact hread
  · cases h.symm.trans (document_of_not_expressible hp)

theorem expressible_standard : standard.Expressible := Limits.expressible_standard

/-- A profile that has been read can be written. -/
theorem expressible_of_ofDocument? {text : String} {p : Profile} (h : ofDocument? text = some p) :
    p.Expressible := by
  simp only [ofDocument?, Option.bind_eq_bind, Option.bind_eq_some_iff, Option.pure_def,
    Option.some.injEq] at h
  obtain ⟨v, -, r, -, n, -, hierarchy, -, limits, hlimits, rfl⟩ := h
  have hfits : limits.Expressible :=
    Record.of_withDefault (fun _ _ => Limits.expressible_of_ofRecord?)
      Limits.expressible_standard hlimits
  exact hfits

end CommandLine.Profile

/-! ## Keys and their values -/

namespace CommandLine

/-- What a key of a profile stands for. -/
inductive ProfileValue
  | path (path : Option String)
  | number (n : Nat)
  | truth (b : Bool)
  deriving DecidableEq

/-- The numbers among the values that fit the format of documents. -/
def ProfileValue.Fits : ProfileValue → Prop
  | number n => Toml.Fits n
  | path _ | truth _ => True

/-- The value that a text spells for a key. -/
def ProfileKey.parse (key : ProfileKey) (text : String) : Except ProfileError ProfileValue :=
  match key with
  | hierarchy => .ok (.path (some text))
  | maxAliasDepth => (Profile.number text).map .number
  | maxExpressionLength => do
    let n ← Profile.number text
    if n = 0 then .error .noLength else .ok (.number n)
  | defaultSortAscending => (Profile.boolean text).map .truth

namespace Profile

/-- The value of a key. -/
def get (p : Profile) : ProfileKey → ProfileValue
  | .hierarchy => .path p.hierarchy
  | .maxAliasDepth => .number p.limits.maxAliasDepth
  | .maxExpressionLength => .number p.limits.maxExpressionLength
  | .defaultSortAscending => .truth p.limits.defaultSortAscending

/-- A profile is the values of its keys. -/
theorem ext_get {p q : Profile} (h : ∀ key, p.get key = q.get key) : p = q := by
  obtain ⟨hierarchy, depth, length, sort⟩ := p
  obtain ⟨hierarchy', depth', length', sort'⟩ := q
  have h₁ := h .hierarchy
  have h₂ := h .maxAliasDepth
  have h₃ := h .maxExpressionLength
  have h₄ := h .defaultSortAscending
  simp only [get, ProfileValue.path.injEq, ProfileValue.number.injEq,
    ProfileValue.truth.injEq] at h₁ h₂ h₃ h₄
  simp [h₁, h₂, h₃, h₄]

theorem expressible_iff_get {p : Profile} : p.Expressible ↔ ∀ key, (p.get key).Fits := by
  constructor
  · intro h key
    cases key with
    | hierarchy => trivial
    | maxAliasDepth => exact h.depth
    | maxExpressionLength => exact h.length
    | defaultSortAscending => trivial
  · exact fun h => ⟨h .maxAliasDepth, h .maxExpressionLength⟩

/-- The other profile has the value under the key, and is the same under all other keys. -/
structure Replaces (key : ProfileKey) (value : ProfileValue) (p q : Profile) : Prop where
  same : q.get key = value
  others : ∀ other, other ≠ key → q.get other = p.get other

theorem Replaces.unique {key : ProfileKey} {value : ProfileValue} {p q r : Profile}
    (hq : p.Replaces key value q) (hr : p.Replaces key value r) : q = r :=
  ext_get fun other => by
    by_cases h : other = key
    · rw [h, hq.same, hr.same]
    · rw [hq.others other h, hr.others other h]

/-- A key is set to the value that a text spells for it. A text that spells none is refused for the
same reason. -/
theorem setKey_cases (p : Profile) (key : ProfileKey) (text : String) :
    (∃ value q, key.parse text = .ok value ∧ p.setKey key text = .ok q ∧ p.Replaces key value q) ∨
    ∃ cause, key.parse text = .error cause ∧ p.setKey key text = .error cause := by
  cases key with
  | hierarchy =>
    exact .inl ⟨_, { p with hierarchy := some text }, rfl, rfl, rfl, fun other hne => by
      cases other <;> trivial⟩
  | maxAliasDepth =>
    rw [ProfileKey.parse, setKey]
    cases number text with
    | error cause => exact .inr ⟨cause, rfl, rfl⟩
    | ok n =>
      exact .inl ⟨_, { p with limits.maxAliasDepth := n }, rfl, rfl, rfl, fun other hne => by
        cases other <;> trivial⟩
  | maxExpressionLength =>
    rw [ProfileKey.parse, setKey]
    cases number text with
    | error cause => exact .inr ⟨cause, rfl, rfl⟩
    | ok n =>
      by_cases hn : n = 0
      · exact .inr ⟨.noLength, if_pos hn, if_pos hn⟩
      · exact .inl ⟨_, { p with limits.maxExpressionLength := n }, if_neg hn, if_neg hn, rfl,
          fun other hne => by cases other <;> trivial⟩
  | defaultSortAscending =>
    rw [ProfileKey.parse, setKey]
    cases boolean text with
    | error cause => exact .inr ⟨cause, rfl, rfl⟩
    | ok b =>
      exact .inl ⟨_, { p with limits.defaultSortAscending := b }, rfl, rfl, rfl, fun other hne => by
        cases other <;> trivial⟩

theorem Replaces.expressible_iff {key : ProfileKey} {value : ProfileValue} {p q : Profile}
    (h : p.Replaces key value q) (hp : p.Expressible) : q.Expressible ↔ value.Fits := by
  rw [expressible_iff_get] at hp ⊢
  constructor
  · exact fun hq => h.same ▸ hq key
  · intro hvalue other
    by_cases hother : other = key
    · rw [hother, h.same]
      exact hvalue
    · rw [h.others other hother]
      exact hp other

/-- The other profile is this one with the value that a text spells for the key of a name, which
can be written. -/
def Sets (p : Profile) (name text : String) (q : Profile) : Prop :=
  ∃ key value, ProfileKey.ofName? name = some key ∧ key.parse text = .ok value ∧ value.Fits ∧
    p.Replaces key value q

/-- A key is set in a profile that can be written then, or not at all. -/
theorem set_cases (p : Profile) (hp : p.Expressible) (name text : String) :
    (∃ q, p.set name text = .ok q ∧ p.Sets name text q) ∨
    (∀ q, p.set name text = .ok q → ¬q.Expressible) ∧ ∀ q, ¬p.Sets name text q := by
  rw [set]
  cases hname : ProfileKey.ofName? name with
  | none =>
    refine .inr ⟨fun q h => (by cases h), ?_⟩
    rintro q ⟨key, value, hkey, -⟩
    cases hname.symm.trans hkey
  | some key =>
    rcases p.setKey_cases key text with ⟨value, q, hparse, hset, hq⟩ | ⟨cause, hparse, hset⟩
    · by_cases hvalue : value.Fits
      · exact .inl ⟨q, hset, key, value, hname, hparse, hvalue, hq⟩
      · refine .inr ⟨fun r hr => ?_, ?_⟩
        · cases hset.symm.trans hr
          exact fun h => hvalue ((hq.expressible_iff hp).mp h)
        · rintro r ⟨key', value', hkey, hparse', hfits, -⟩
          cases hname.symm.trans hkey
          cases hparse.symm.trans hparse'
          exact hvalue hfits
    · refine .inr ⟨fun r hr => (by cases hset.symm.trans hr), ?_⟩
      rintro r ⟨key', value, hkey, hparse', -⟩
      cases hname.symm.trans hkey
      cases hparse.symm.trans hparse'

namespace Sets

variable {p q r : Profile} {name text name' text' : String}

theorem expressible (hq : p.Sets name text q) (hp : p.Expressible) : q.Expressible := by
  obtain ⟨key, value, -, -, hfits, hq⟩ := hq
  exact (hq.expressible_iff hp).mpr hfits

theorem unique (hq : p.Sets name text q) (hr : p.Sets name text r) : q = r := by
  obtain ⟨key, value, hname, hparse, -, hq⟩ := hq
  obtain ⟨key', value', hname', hparse', -, hr⟩ := hr
  cases hname.symm.trans hname'
  cases hparse.symm.trans hparse'
  exact hq.unique hr

/-- Different keys may be set in either order. -/
theorem commute (hq : p.Sets name text q) (hr : q.Sets name' text' r) (hne : name ≠ name') :
    ∃ q', p.Sets name' text' q' ∧ q'.Sets name text r := by
  obtain ⟨key, value, hname, hparse, hfits, hq⟩ := hq
  obtain ⟨key', value', hname', hparse', hfits', hr⟩ := hr
  have hkeys : key ≠ key' := by
    rintro rfl
    have hfirst := List.find?_some hname
    have hsecond := List.find?_some hname'
    exact hne ((beq_iff_eq.mp hfirst).symm.trans (beq_iff_eq.mp hsecond))
  rcases p.setKey_cases key' text' with ⟨_, q', hvalue, -, hq'⟩ | ⟨cause, hcause, -⟩
  · cases hparse'.symm.trans hvalue
    refine ⟨q', ⟨key', value', hname', hparse', hfits', hq'⟩, key, value, hname, hparse, hfits,
      ?_, ?_⟩
    · rw [hr.others key hkeys, hq.same]
    · intro other hother
      by_cases h : other = key'
      · rw [h, hr.same, hq'.same]
      · rw [hr.others other h, hq.others other hother, hq'.others other h]
  · cases hparse'.symm.trans hcause

end Sets

end Profile

end CommandLine

end CalendarQuery

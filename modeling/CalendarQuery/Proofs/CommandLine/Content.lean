import CalendarQuery.Proofs.CommandLine.Profile

/-!
# Contents of profile files

* `Profile.ofContent`: the profile in the bytes of a file.
* `Edits`: the bytes after a key has been set in the profile.
* `Edits.unique`, `Edits.commute`: an edit is determined, and edits of different keys may be
  exchanged.
-/

namespace CalendarQuery.CommandLine

theorem fromUTF8?_toUTF8 (text : String) : String.fromUTF8? text.toUTF8 = some text := by
  rw [String.fromUTF8?, String.toUTF8_eq_toByteArray, dif_pos text.isValidUTF8]
  rfl

/-- The profile in a file with such bytes. -/
def Profile.ofContent : Option ByteArray → Except ProfileError Profile
  | none => .ok .standard
  | some bytes =>
    match String.fromUTF8? bytes with
    | none => .error (.unreadable .notText)
    | some text => (ofDocument? text).elim (.error .malformed) .ok

namespace Profile

theorem expressible_of_ofContent {content : Option ByteArray} {p : Profile}
    (h : ofContent content = .ok p) : p.Expressible := by
  unfold ofContent at h
  split at h
  · cases h
    exact expressible_standard
  · split at h
    · cases h
    · rename_i text _
      cases hread : ofDocument? text with
      | none => simp [hread] at h
      | some q =>
        rw [hread] at h
        cases h
        exact expressible_of_ofDocument? hread

/-- A profile is read back from the file to which it was written. -/
theorem ofContent_document {text : String} {p : Profile} (h : p.document = .ok text) :
    ofContent (some text.toUTF8) = .ok p := by
  simp only [ofContent, fromUTF8?_toUTF8, ofDocument?_document h, Option.elim]

end Profile

/-- The content of a file after the value that a text spells has been set for the key of a name. -/
def Edits (name text : String) (before after : Option ByteArray) : Prop :=
  ∃ p q document, Profile.ofContent before = .ok p ∧ p.Sets name text q ∧
    q.document = .ok document ∧ after = some document.toUTF8

namespace Edits

variable {name text name' text' : String} {before mid after other : Option ByteArray}

/-- The profile afterwards is the one before with the key set. -/
theorem ofContent_eq_ok (h : Edits name text before after) : ∃ p q,
    Profile.ofContent before = .ok p ∧ p.Sets name text q ∧ Profile.ofContent after = .ok q := by
  obtain ⟨p, q, document, hp, hq, hdocument, rfl⟩ := h
  exact ⟨p, q, hp, hq, Profile.ofContent_document hdocument⟩

/-- What can be set in a profile can be set in its file. -/
theorem of_sets {p q : Profile} (hp : Profile.ofContent before = .ok p) (hq : p.Sets name text q) :
    ∃ document, q.document = .ok document ∧ Edits name text before (some document.toUTF8) := by
  obtain ⟨document, hdocument, -⟩ :=
    Profile.document_of_expressible (hq.expressible (Profile.expressible_of_ofContent hp))
  exact ⟨document, hdocument, p, q, document, hp, hq, hdocument, rfl⟩

theorem unique (h : Edits name text before after) (h' : Edits name text before other) :
    after = other := by
  obtain ⟨p, q, document, hp, hq, hdocument, rfl⟩ := h
  obtain ⟨p', q', document', hp', hq', hdocument', rfl⟩ := h'
  cases hp.symm.trans hp'
  cases hq.unique hq'
  cases hdocument.symm.trans hdocument'
  rfl

/-- Different keys may be set in either order. -/
theorem commute (h : Edits name text before mid) (h' : Edits name' text' mid after)
    (hne : name ≠ name') :
    ∃ mid', Edits name' text' before mid' ∧ Edits name text mid' after := by
  obtain ⟨p, q, hp, hq, hmid⟩ := h.ofContent_eq_ok
  obtain ⟨q₁, r, document, hq₁, hr, hdocument, rfl⟩ := h'
  cases hmid.symm.trans hq₁
  obtain ⟨q', hq', hr'⟩ := hq.commute hr hne
  obtain ⟨document', hdocument', hfirst⟩ := of_sets hp hq'
  exact ⟨_, hfirst, q', r, document, Profile.ofContent_document hdocument', hr', hdocument, rfl⟩

end Edits

end CalendarQuery.CommandLine

import CalendarQuery.Proofs.Comparison.Reading
import CalendarQuery.Proofs.Property.Path

/-!
# Paths that are read are spelled

A path that is read is spelled by the tokens that it takes; the other direction is
`PropertyPath.reads_spells`.

* `PropertyPath.spells_of_accepts`: the tokens of a path that is read.
-/

namespace CalendarQuery

open Reader

namespace PathSegment

variable {s s' : TokenStream} {seg : PathSegment}

theorem alike_readIndexed (p : Property) : Alike (readIndexed p) (readIndexed p) :=
  alike_of_paired (paired_readIndexed Pairing.lawful_sameTokens p)

theorem alike_readFirst (word : String) : Alike (readFirst word) (readFirst word) :=
  alike_of_paired (paired_readFirst Pairing.lawful_sameTokens word)

theorem alike_readDotted : Alike readDotted readDotted :=
  alike_of_paired (paired_readDotted Pairing.lawful_sameTokens)

/-- The index of a segment and its closing bracket, behind the opening one. -/
theorem indexTokens_of_accepts {p : Property} (h : Accepts (readIndex p) s seg s') :
    seg.property = p ∧ s.cons (.symbol '[') = s'.append seg.indexTokens := by
  obtain ⟨seg', s₁, hindex, hclose⟩ := h.of_bind (alike_readIndexed p)
  obtain ⟨-, y, hy, hclose⟩ := hclose.of_next_bind
  split at hclose
  · rename_i hbracket
    obtain ⟨rfl, rfl⟩ := hclose.of_pure
    have hs₁ : s₁ = s₁.tail.cons (.symbol ']') :=
      TokenStream.eq_cons_of_head (by simpa [Token.isSymbol, hy] using hbracket) (by simp)
    obtain ⟨-, x, hx, hindex⟩ := hindex.of_next_bind
    split at hindex
    · rename_i n hn
      obtain ⟨rfl, hs⟩ := hindex.of_pure
      have := TokenStream.eq_cons_of_head (hx.symm.trans hn) (by simp)
      refine ⟨rfl, ?_⟩
      rw [this, hs, hs₁]
      rfl
    · rename_i key hkey
      obtain ⟨rfl, hs⟩ := hindex.of_pure
      have := TokenStream.eq_cons_of_head (hx.symm.trans hkey) (by simp)
      refine ⟨rfl, ?_⟩
      rw [this, hs, hs₁]
      rfl
    · exact absurd hindex Accepts.not_fail
  · exact absurd hclose Accepts.not_fail

theorem names_of_accepts_first {word : String} (h : Accepts (readFirst word) s seg s') :
    PropertyPath.Names word seg ∧ s = s'.append seg.indexTokens := by
  unfold readFirst at h
  split at h
  · exact absurd h Accepts.not_fail
  · rename_i p hlookup
    have hname := Property.lookup_eq_ok.mp hlookup
    split at h
    · exact absurd h Accepts.not_fail
    · obtain ⟨s₁, rfl, hindex⟩ | ⟨-, -, hplain⟩ := h.of_accept_bind
      · obtain ⟨hproperty, hs⟩ := indexTokens_of_accepts hindex
        exact ⟨by rw [PropertyPath.Names, hproperty, hname], hs⟩
      · obtain ⟨rfl, rfl⟩ := hplain.of_pure
        exact ⟨hname, rfl⟩

theorem names_of_accepts_following (h : Accepts readFollowing s seg s') :
    ∃ word, PropertyPath.Names word seg ∧ s = s'.cons (.word word) := by
  obtain ⟨-, x, hx, h⟩ := h.of_next_bind
  split at h
  · rename_i word hword
    have hs := TokenStream.eq_cons_of_head (hx.symm.trans hword) (by simp)
    split at h
    · exact absurd h Accepts.not_fail
    · rename_i p hlookup
      split at h
      · obtain ⟨-, y, -, h⟩ := h.of_peek_bind
        split at h
        · exact absurd h Accepts.not_fail
        · obtain ⟨rfl, hs'⟩ := h.of_pure
          exact ⟨word, Property.lookup_eq_ok.mp hlookup, by rw [← hs', ← hs]⟩
      · exact absurd h Accepts.not_fail
  · exact absurd h Accepts.not_fail

/-- The segments behind the first; the induction is on their number. -/
theorem names_of_accepts_tail {ss : List PathSegment}
    (h : Accepts (many readDotted takes_readDotted) s ss s') :
    ∃ words, List.Forall₂ PropertyPath.Names words ss ∧
      s = s'.append (PropertyPath.dottedTokens words) := by
  induction ss generalizing s with
  | nil =>
    obtain ⟨-, h⟩ | ⟨_, _, _, hnil, -⟩ := h.of_many alike_readDotted
    · obtain ⟨s₁, -, h⟩ | ⟨-, -, h⟩ := h.of_accept_bind
      · obtain ⟨_, hnone, -⟩ := h.of_bind_pure
        cases hnone
      · obtain ⟨-, rfl⟩ := h.of_pure
        exact ⟨[], .nil, rfl⟩
    · cases hnil
  | cons seg ss ih =>
    obtain ⟨hnil, -⟩ | ⟨_, _, s₁, hcons, hdotted, htail⟩ := h.of_many alike_readDotted
    · cases hnil
    · cases hcons
      obtain ⟨words, hwords, rfl⟩ := ih htail
      obtain ⟨s₂, rfl, hseg⟩ | ⟨-, -, hnone⟩ := hdotted.of_accept_bind
      · obtain ⟨seg', heq, hseg⟩ := hseg.of_bind_pure
        cases heq
        obtain ⟨word, hword, rfl⟩ := names_of_accepts_following hseg
        exact ⟨word :: words, .cons hword hwords, rfl⟩
      · obtain ⟨heq, -⟩ := hnone.of_pure
        cases heq

end PathSegment

namespace PropertyPath

theorem eq_of_checkDepth {path path' : PropertyPath} (h : checkDepth path = .ok path') :
    path = path' := by
  unfold checkDepth at h
  split at h
  · exact Except.ok.inj h
  · cases h

/-- A path that is read is spelled by the tokens that it takes. -/
theorem spells_of_accepts {x : Lexeme} {s s' : TokenStream} {path : PropertyPath}
    (h : Accepts (read x) s path s') :
    ∃ ts, path.Spells (x.token :: ts) ∧ s = s'.append ts := by
  obtain ⟨l, l', -, hread, -⟩ := id h
  have hobeys : Obeys _ WellFormed (read x) := obeys_read Reading.lawful_true trivial
  have hpath := ((hobeys l trivial).1 path l' hread).1
  unfold read at h
  split at h
  · rename_i word hword
    rw [hword]
    split at h
    · rename_i huid
      obtain ⟨-, y, -, h⟩ := h.of_peek_bind
      split at h
      · exact absurd h Accepts.not_fail
      · obtain ⟨rfl, rfl⟩ := h.of_pure
        exact ⟨[], .categoryUid huid, rfl⟩
    · obtain ⟨head, s₁, hhead, hrest⟩ := h.of_bind (PathSegment.alike_readFirst word)
      obtain ⟨tail, s₂, htail, hdepth⟩ := hrest.of_bind
        (alike_of_paired (Paired.many (PathSegment.paired_readDotted Pairing.lawful_sameTokens)))
      obtain ⟨hname, rfl⟩ := PathSegment.names_of_accepts_first hhead
      obtain ⟨words, hnames, rfl⟩ := PathSegment.names_of_accepts_tail htail
      split at hdepth
      · rename_i path' hok
        obtain ⟨rfl, rfl⟩ := hdepth.of_pure
        obtain rfl := eq_of_checkDepth hok
        exact ⟨_, .segments hpath hname hnames, by simp⟩
      · exact absurd hdepth Accepts.not_fail
  · exact absurd h Accepts.not_fail

end PropertyPath

end CalendarQuery

import CalendarQuery.Compiler
import CalendarQuery.Hierarchy.Store
import CalendarQuery.Proofs.Filter.Text
import CalendarQuery.Proofs.Property.Spelling
import CalendarQuery.Proofs.Sort

/-!
# The grammar of sort expressions

A sort expression that is not blank gives the keys that its tokens spell; what is blank is decided
before, by other characters than those that separate tokens.

* `SortKey.Spells`, `SortKey.SpellAll`: the tokens of a key and of a list of keys.
* `SortKey.readAll_iff`: what is read from the tokens.
* `Compiler.sort_iff_grammar`: the keys of a sort expression, and for which texts its tokens alone
  decide about them.
* `Compiler.sort_control_character`: they do not for a control character.
-/

namespace CalendarQuery

open Reader

namespace SortKey

/-- The tokens spell the key: a path, and a colon and its direction, letter case ignored, unless
that is the given one. -/
inductive Spells (ascending : Bool) : SortKey → List Token → Prop
  | plain {path : PropertyPath} {ts : List Token} : path.Spells ts →
    Spells ascending ⟨path, ascending⟩ ts
  | directed {key : SortKey} {ts : List Token} {word : String} : key.path.Spells ts →
    Text.sameName word key.direction = true →
    Spells ascending key (ts ++ [.symbol ':', .word word])

/-- The tokens spell the keys one after the other, with commas between them. -/
inductive SpellAll (ascending : Bool) : List SortKey → List Token → Prop
  | nil : SpellAll ascending [] []
  | cons {key : SortKey} {keys : List SortKey} {ts : List Token} {tss : List (List Token)} :
    key.Spells ascending ts → List.Forall₂ (Spells ascending) keys tss →
    SpellAll ascending (key :: keys) (ts ++ tss.flatMap fun us => .symbol ',' :: us)

variable {ascending : Bool} {key : SortKey} {keys : List SortKey} {ts : List Token}
  {s s' : TokenStream}

theorem Spells.exists_word (h : key.Spells ascending ts) : ∃ word us, ts = .word word :: us := by
  cases h with
  | plain hpath => exact hpath.exists_word
  | directed hpath _ =>
    obtain ⟨word, us, rfl⟩ := hpath.exists_word
    exact ⟨word, _, rfl⟩

/-- No tokens are spelled by no keys only. -/
theorem spellAll_nil_iff : SpellAll ascending keys [] ↔ keys = [] := by
  constructor
  · intro h
    generalize hts : ([] : List Token) = ts at h
    cases h with
    | nil => rfl
    | cons hkey _ =>
      obtain ⟨word, us, rfl⟩ := hkey.exists_word
      cases hts
  · rintro rfl
    exact .nil

/-- No keys are spelled by no tokens only. -/
theorem nil_spellAll_iff : SpellAll ascending [] ts ↔ ts = [] := by
  constructor
  · intro h
    cases h
    rfl
  · rintro rfl
    exact .nil

/-! ## Keys are read from their tokens -/

/-- A key ends before a comma and at the end. -/
def Ends (s : TokenStream) : Prop := s = .done ∨ ∃ s₁ : TokenStream, s = s₁.cons (.symbol ',')

theorem Ends.readable (h : Ends s) : s.Readable := by
  obtain rfl | ⟨s₁, rfl⟩ := h
  · exact TokenStream.readable_done
  · exact TokenStream.readable_cons _ _

theorem Ends.head_ne (h : Ends s) {c : Char} (hc : c ≠ ',') : s.head ≠ .symbol c := by
  obtain rfl | ⟨s₁, rfl⟩ := h
  · simp
  · simpa using hc.symm

theorem reads_direction {word : String} (hword : Text.sameName word key.direction = true)
    (s : TokenStream) : Reads readDirection (s.cons (.word word)) key.ascending s := by
  refine Reads.next_bind fun x hx => ?_
  simp only [hx, Token.isKeyword]
  obtain ⟨path, _ | _⟩ := key
  · have hdesc : Text.sameName word "desc" = true := hword
    have hne : Text.sameName word "asc" = false := by
      rw [Text.sameName_eq, beq_iff_eq] at hdesc
      rw [Text.sameName_eq, hdesc]
      decide
    rw [hne, hdesc]
    exact Reads.pure false s
  · have hasc : Text.sameName word "asc" = true := hword
    rw [hasc]
    exact Reads.pure true s

theorem reads_key (h : key.Spells ascending ts) (hs : Ends s) :
    Reads (read ascending) (s.append ts) key s := by
  cases h with
  | @plain path _ hpath =>
    obtain ⟨word, us, rfl⟩ := hpath.exists_word
    have hends : PathSegment.Ends s :=
      ⟨hs.readable, hs.head_ne (by decide), hs.head_ne (by decide)⟩
    refine Reads.next_bind fun x hx => (PropertyPath.reads_spells hpath hends hx).bind ?_
    refine (Reads.accept_other hs.readable (hs.head_ne (c := ':') (by decide))).bind ?_
    exact Reads.pure _ s
  | @directed _ ts word hpath hword =>
    obtain ⟨first, us, rfl⟩ := hpath.exists_word
    have hends : PathSegment.Ends ((s.cons (.word word)).cons (.symbol ':')) :=
      ⟨TokenStream.readable_cons _ _, by simp, by simp⟩
    rw [TokenStream.append_append]
    refine Reads.next_bind fun x hx => (PropertyPath.reads_spells hpath hends hx).bind ?_
    refine (Reads.accept_symbol ':' _).bind ?_
    exact (reads_direction hword s).bind (Reads.pure key s)

theorem ends_further (tss : List (List Token)) :
    Ends (TokenStream.done.append (tss.flatMap fun us => .symbol ',' :: us)) := by
  cases tss with
  | nil => exact .inl rfl
  | cons us tss =>
    rw [List.flatMap_cons, List.cons_append, TokenStream.append_cons]
    exact .inr ⟨_, rfl⟩

theorem reads_further {tss : List (List Token)} (h : List.Forall₂ (Spells ascending) keys tss) :
    Reads (many (readFurther ascending) (takes_readFurther ascending))
      (TokenStream.done.append (tss.flatMap fun us => .symbol ',' :: us)) keys .done := by
  induction h with
  | nil =>
    rw [List.flatMap_nil, TokenStream.append_nil]
    refine Reads.many_none (Reads.next_bind_head TokenStream.readable_done fun x hx => ?_)
    rw [TokenStream.head_done] at hx
    simp only [hx]
    exact Reads.pure none _
  | @cons key us keys tss hkey _ ih =>
    have htokens : TokenStream.done.append ((us :: tss).flatMap fun us => .symbol ',' :: us) =
        ((TokenStream.done.append (tss.flatMap fun us => .symbol ',' :: us)).append us).cons
          (.symbol ',') := by
      simp
    rw [htokens]
    refine Reads.many_some (Reads.next_bind fun x hx => ?_) ih
    simp only [hx]
    exact (reads_key hkey (ends_further tss)).bind (Reads.pure (some key) _)

theorem reads_all (h : SpellAll ascending keys ts) (hne : keys ≠ []) :
    Reads (readAll ascending) (TokenStream.done.append ts) keys .done := by
  cases h with
  | nil => contradiction
  | cons hkey hkeys =>
    rw [TokenStream.append_append]
    exact (reads_key hkey (ends_further _)).bind ((reads_further hkeys).bind (Reads.pure _ _))

/-! ## What is read is spelled -/

theorem alike_read : Alike (read ascending) (read ascending) :=
  alike_of_paired (paired_read Pairing.lawful_sameTokens ascending)

theorem direction_of_accepts {b : Bool} (h : Accepts readDirection s b s') (path : PropertyPath) :
    ∃ word, Text.sameName word (direction ⟨path, b⟩) = true ∧ s = s'.cons (.word word) := by
  obtain ⟨-, x, hx, h⟩ := h.of_next_bind
  have hword : ∀ {w : String}, x.token.isKeyword w = true →
      ∃ word, Text.sameName word w = true ∧ s = s.tail.cons (.word word) := by
    intro w hw
    unfold Token.isKeyword at hw
    split at hw
    · rename_i word hword
      exact ⟨word, hw, TokenStream.eq_cons_of_head (hx.symm.trans hword) (by simp)⟩
    · cases hw
  split at h
  · rename_i hasc
    obtain ⟨rfl, rfl⟩ := h.of_pure
    exact hword hasc
  · split at h
    · rename_i hdesc
      obtain ⟨rfl, rfl⟩ := h.of_pure
      exact hword hdesc
    · exact absurd h Accepts.not_fail

theorem spells_of_accepts (h : Accepts (read ascending) s key s') :
    ∃ ts, key.Spells ascending ts ∧ s = s'.append ts := by
  obtain ⟨-, x, hx, hread⟩ := h.of_next_bind
  obtain ⟨path, s₁, hpath, hdirection⟩ := hread.of_bind
    (alike_of_paired (PropertyPath.paired_read Pairing.lawful_sameTokens rfl))
  obtain ⟨ts, hspells, htail⟩ := PropertyPath.spells_of_accepts hpath
  obtain ⟨word, us, hus⟩ := hspells.exists_word
  have hs : s = s₁.append (x.token :: ts) := by
    rw [TokenStream.append_cons, ← htail]
    refine TokenStream.eq_cons_of_head hx.symm ?_
    rw [(List.cons.inj hus).1]
    simp
  obtain ⟨s₂, rfl, hdirected⟩ | ⟨-, -, hplain⟩ := hdirection.of_accept_bind
  · obtain ⟨b, rfl, hb⟩ := hdirected.of_bind_pure
    obtain ⟨word, hword, rfl⟩ := direction_of_accepts hb path
    exact ⟨_, .directed hspells hword, by simp [hs]⟩
  · obtain ⟨rfl, rfl⟩ := hplain.of_pure
    exact ⟨_, .plain hspells, hs⟩

/-- The keys behind the first; the induction is on their number. -/
theorem spells_of_accepts_further
    (h : Accepts (many (readFurther ascending) (takes_readFurther ascending)) s keys s') :
    ∃ tss, List.Forall₂ (Spells ascending) keys tss ∧
      s = TokenStream.done.append (tss.flatMap fun us => .symbol ',' :: us) := by
  have halike := alike_of_paired (paired_readFurther Pairing.lawful_sameTokens ascending)
  induction keys generalizing s with
  | nil =>
    obtain ⟨-, hend⟩ | ⟨_, _, _, hnil, -⟩ := h.of_many halike
    · obtain ⟨hs, x, hx, hnone⟩ := hend.of_next_bind
      split at hnone
      · obtain ⟨_, hsome, -⟩ := hnone.of_bind_pure
        cases hsome
      · rename_i heof
        exact ⟨[], .nil, h.given.eq_done hs (hx.symm.trans heof)⟩
      · exact absurd hnone Accepts.not_fail
    · cases hnil
  | cons key keys ih =>
    obtain ⟨hnil, -⟩ | ⟨_, _, s₁, hcons, hstep, hfurther⟩ := h.of_many halike
    · cases hnil
    cases hcons
    obtain ⟨tss, htss, rfl⟩ := ih hfurther
    obtain ⟨-, x, hx, hkey⟩ := hstep.of_next_bind
    split at hkey
    · rename_i hcomma
      obtain ⟨key', heq, hkey⟩ := hkey.of_bind_pure
      cases heq
      obtain ⟨us, hus, htail⟩ := spells_of_accepts hkey
      refine ⟨us :: tss, .cons hus htss, ?_⟩
      rw [TokenStream.eq_cons_of_head (hx.symm.trans hcomma) (by simp), htail]
      simp
    · obtain ⟨heq, -⟩ := hkey.of_pure
      cases heq
    · exact absurd hkey Accepts.not_fail

theorem spellAll_of_accepts (h : Accepts (readAll ascending) s keys s') :
    ∃ ts, keys ≠ [] ∧ SpellAll ascending keys ts ∧ s = TokenStream.done.append ts := by
  obtain ⟨key, s₁, hkey, hothers⟩ := h.of_bind alike_read
  obtain ⟨others, rfl, hfurther⟩ := hothers.of_bind_pure
  obtain ⟨tss, htss, rfl⟩ := spells_of_accepts_further hfurther
  obtain ⟨ts, hts, rfl⟩ := spells_of_accepts hkey
  exact ⟨_, by simp, .cons hts htss, by simp⟩

/-- The keys of a text are those that its tokens spell. -/
theorem readAll_iff {text : String} :
    (∃ l, readAll ascending (Lexer.ofString text) = .ok (keys, l)) ↔
      keys ≠ [] ∧ (TokenStream.ofString text).complete = true ∧
        SpellAll ascending keys (TokenStream.ofString text).tokens := by
  have hgives := TokenStream.gives_ofString text
  generalize TokenStream.ofString text = s at hgives ⊢
  constructor
  · rintro ⟨l, hread⟩
    have halike := alike_of_paired (paired_readAll Pairing.lawful_sameTokens ascending)
    obtain ⟨s', -, -, hl, -⟩ := halike s _ _ l keys hgives hgives hread
    obtain ⟨ts, hne, hspell, rfl⟩ := spellAll_of_accepts ⟨_, l, hgives, hread, hl⟩
    exact ⟨hne, rfl, by simpa [TokenStream.append, TokenStream.done] using hspell⟩
  · rintro ⟨hne, hcomplete, hspell⟩
    have hs : s = TokenStream.done.append s.tokens := by
      obtain ⟨tokens, complete⟩ := s
      simp only at hcomplete
      rw [hcomplete]
      simp [TokenStream.append, TokenStream.done]
    obtain ⟨l, hl, -⟩ := reads_all hspell hne _ (hs ▸ hgives)
    exact ⟨l, hl⟩

end SortKey

/-- A text has no tokens if and only if all of its characters are separators. -/
theorem TokenStream.ofChars_eq_done_iff {cs : List Char} :
    ofChars cs = .done ↔ cs.all Token.isSeparator = true := by
  rw [List.all_eq_true]
  constructor
  · intro h
    cases Token.start cs with
    | done hblanks => exact hblanks
    | token hblanks hcovers hrun =>
      rw [ofChars_blanks hblanks, ofChars_covers hcovers hrun] at h
      cases h
    | unclosed hblanks hquote hclosed =>
      rw [ofChars_blanks hblanks, ofChars, Lexer.stream_of_error
        (Lexer.next_unclosed hquote hclosed 0)] at h
      cases h
  · intro h
    rw [← List.append_nil cs, ofChars_blanks h, ofChars_nil]

/-- A blank text gives no keys; any other one gives the keys that its tokens spell, of which there
is one at least. -/
theorem parseSort_eq_ok {limits : Limits} {text : String} {keys : List SortKey}
    (hlength : limits.admits text = true) : parseSort limits text = .ok keys ↔
      if text.toList.all Text.isBlank then keys = []
      else keys ≠ [] ∧ (TokenStream.ofString text).complete = true ∧
        SortKey.SpellAll limits.defaultSortAscending keys (TokenStream.ofString text).tokens := by
  rw [← SortKey.readAll_iff]
  unfold parseSort
  rw [hlength]
  split
  · contradiction
  · split
    · simp [eq_comm]
    · rcases SortKey.readAll limits.defaultSortAscending (Lexer.ofString text) with _ | ⟨_, _⟩ <;>
        simp [Except.map]

namespace Compiler

variable {c : Compiler} {text : String} {keys : List SortKey}

theorem sort_eq_sortKeys : c.sort text = .sortKeys keys ↔ parseSort c.limits text = .ok keys := by
  unfold sort
  rcases parseSort c.limits text with _ | _ <;> simp

/-- A text gives no keys if and only if it is blank. -/
theorem sort_eq_nil (hlength : c.limits.admits text = true) :
    c.sort text = .sortKeys [] ↔ text.toList.all Text.isBlank = true := by
  rw [sort_eq_sortKeys, parseSort_eq_ok hlength]
  split <;> simp_all

/-- The tokens of a text say that there are no keys if and only if there are none. -/
theorem complete_and_nil_spellAll_iff {ascending : Bool} :
    (TokenStream.ofString text).complete = true ∧
        SortKey.SpellAll ascending [] (TokenStream.ofString text).tokens ↔
      text.toList.all Token.isSeparator = true := by
  rw [SortKey.nil_spellAll_iff, ← TokenStream.ofChars_eq_done_iff, ← TokenStream.ofString]
  constructor
  · rintro ⟨hcomplete, htokens⟩
    rw [TokenStream.done, ← hcomplete, ← htokens]
  · intro hdone
    rw [hdone]
    exact ⟨rfl, rfl⟩

/-- The keys of a sort expression that is not too long are those that its tokens spell, unless it is
blank: then it has none. This is what the tokens alone say if and only if the text is blank exactly
where it has nothing but separators; and two texts with the same tokens give the same keys if and
only if both are blank or neither is. -/
theorem sort_iff_grammar (c : Compiler) (text : String) (hlength : c.limits.admits text = true) :
    (∀ keys, c.sort text = .sortKeys keys ↔
      if text.toList.all Text.isBlank then keys = []
      else keys ≠ [] ∧ (TokenStream.ofString text).complete = true ∧
        SortKey.SpellAll c.limits.defaultSortAscending keys (TokenStream.ofString text).tokens) ∧
    ((∀ keys, c.sort text = .sortKeys keys ↔ (TokenStream.ofString text).complete = true ∧
        SortKey.SpellAll c.limits.defaultSortAscending keys (TokenStream.ofString text).tokens) ↔
      text.toList.all Text.isBlank = text.toList.all Token.isSeparator) ∧
    ∀ text', c.limits.admits text' = true →
      TokenStream.ofString text' = TokenStream.ofString text →
      ((∀ keys, c.sort text' = .sortKeys keys ↔ c.sort text = .sortKeys keys) ↔
        text'.toList.all Text.isBlank = text.toList.all Text.isBlank) := by
  have hkeys (keys : List SortKey) : c.sort text = .sortKeys keys ↔ _ :=
    sort_eq_sortKeys.trans (parseSort_eq_ok hlength)
  refine ⟨hkeys, ⟨fun h => ?_, fun hblank keys => ?_⟩, fun text' hlength' hstream =>
    ⟨fun h => ?_, fun hblank keys => ?_⟩⟩
  · rw [Bool.eq_iff_iff, ← sort_eq_nil hlength, h [], complete_and_nil_spellAll_iff]
  · rw [hkeys]
    split
    · rename_i hall
      have hdone : TokenStream.ofString text = .done :=
        TokenStream.ofChars_eq_done_iff.mpr (hblank ▸ hall)
      rw [hdone]
      simp [TokenStream.done, SortKey.spellAll_nil_iff]
    · rename_i hall
      refine and_iff_right_of_imp fun hspell => ?_
      rintro rfl
      exact hall (hblank ▸ complete_and_nil_spellAll_iff.mp hspell)
  · rw [Bool.eq_iff_iff, ← sort_eq_nil hlength, ← sort_eq_nil hlength', h []]
  · rw [sort_eq_sortKeys, parseSort_eq_ok hlength', hkeys, hblank, hstream]

theorem sort_iff_grammar_due :
    let c : Compiler := ⟨Store.empty.hierarchy, .standard⟩
    c.limits.admits "due:DESC" = true ∧ c.sort "due:DESC" = .sortKeys [⟨.single .due, false⟩] ∧
      c.sort "due:DESC" ≠ .sortKeys [] := by
  intro c
  have hlength : c.limits.admits "due:DESC" = true := by decide
  have hstream : TokenStream.ofString "due:DESC" =
      ⟨[.word "due", .symbol ':', .word "DESC"], true⟩ := by
    have hchars : "due:DESC".toList = "due".toList ++ ':' :: ("DESC".toList ++ []) := by decide
    rw [TokenStream.ofString, hchars, TokenStream.ofChars_plain (by decide) (by decide) (by decide)
      (TokenStream.bounded_cons (by decide) _), TokenStream.ofChars_symbol (by decide),
      TokenStream.ofChars_plain (by decide) (by decide) (by decide) TokenStream.bounded_nil,
      TokenStream.ofChars_nil]
    rfl
  have hpath : (PropertyPath.single .due).Spells
      (.word "due" :: ([] ++ PropertyPath.dottedTokens [])) :=
    .segments (PropertyPath.wellFormed_single rfl) (Property.ofName?_spelling .due) .nil
  have hkey : SortKey.Spells c.limits.defaultSortAscending ⟨.single .due, false⟩
      ([.word "due"] ++ [.symbol ':', .word "DESC"]) :=
    .directed hpath (by rw [Text.sameName_eq]; decide)
  have hspell : SortKey.SpellAll c.limits.defaultSortAscending [⟨.single .due, false⟩]
      ([.word "due", .symbol ':', .word "DESC"] ++ [].flatMap fun us => .symbol ',' :: us) :=
    .cons hkey .nil
  have hgrammar := (sort_iff_grammar c "due:DESC" hlength).1
  refine ⟨hlength, ?_, ?_⟩
  · rw [hgrammar, if_neg (by decide), hstream]
    exact ⟨by simp, rfl, hspell⟩
  · rw [ne_eq, hgrammar, if_neg (by decide)]
    simp

/-- A control character separates tokens and is not blank: a text of it alone fails, although it has
the tokens of the empty text. -/
theorem sort_control_character :
    let c : Compiler := ⟨Store.empty.hierarchy, .standard⟩
    c.limits.admits "\x01" = true ∧ TokenStream.ofString "\x01" = TokenStream.ofString "" ∧
      c.sort "\x01" = .failed "" (.unexpectedEnd .propertyName) ∧ c.sort "" = .sortKeys [] ∧
      ¬ ∀ keys, c.sort "\x01" = .sortKeys keys ↔ (TokenStream.ofString "\x01").complete = true ∧
        SortKey.SpellAll c.limits.defaultSortAscending keys
          (TokenStream.ofString "\x01").tokens := by
  intro c
  have hfails : c.sort "\x01" = .failed "" (.unexpectedEnd .propertyName) := rfl
  refine ⟨by decide, ?_, hfails, rfl, fun h => ?_⟩
  · have hdone : TokenStream.ofString "\x01" = .done :=
      TokenStream.ofChars_eq_done_iff.mpr (by decide)
    exact hdone.trans TokenStream.ofChars_nil.symm
  · have hkeys := (h []).mpr (complete_and_nil_spellAll_iff.mpr (by decide))
    rw [hfails] at hkeys
    cases hkeys

end Compiler

end CalendarQuery

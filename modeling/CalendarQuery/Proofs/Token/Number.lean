import CalendarQuery.Proofs.Text.Numeral
import CalendarQuery.Proofs.Token.Partition
import Mathlib.Data.List.Nodup

/-!
# Words and numbers of a text

Where lexing comes to a run of word characters, the longest such run is one lexeme, and its
characters alone decide which: a number if they are a numeral in range, else a word as it stands.

* `Token.ofWord_eq_number_iff`, `Token.ofWord_eq_word_iff`: the token of a run.
* `Lexer.Lexes.exists_before`: what stands before a span.
* `Lexer.LongestRun`: the places of runs. `LongestRun.mem_lexemes_iff`, `exists_longestRun`: they
  are those of the words and numbers of the text.
-/

namespace CalendarQuery

namespace Token

variable {cs : List Char}

theorem ofWord_eq_number_iff {n : Int64} : ofWord cs = .number n ↔ Text.Numeral cs n.toInt := by
  rw [← Text.int64?_eq_some_iff]
  unfold ofWord
  cases Text.int64? cs <;> simp

/-- A run is a word as it stands unless it is a numeral in the signed 64-bit range. -/
theorem ofWord_eq_word_iff {s : String} : ofWord cs = .word s ↔
    s = String.ofList cs ∧
      ∀ z, Text.Numeral cs z → z < Int64.minValue.toInt ∨ Int64.maxValue.toInt < z := by
  rw [← Text.int64?_eq_none_iff]
  unfold ofWord
  cases Text.int64? cs <;> simp [eq_comm]

/-- The token of a run is that of its characters. -/
theorem Covers.eq_ofWord {t : Token} (h : t.Covers cs) (hrun : t.isRun = true) :
    t = ofWord cs := by
  cases h with
  | symbol _ => cases hrun
  | quoted _ _ => cases hrun
  | run _ _ => rfl

end Token

namespace Lexer

open Token TokenStream

/-! ## The place of a span -/

/-- What stands before a span is lexed to its end and gives the spans before it. A run starts behind
no word character and ends before none. -/
theorem Lexes.exists_before {o : Nat} {cs : List Char} {spans spans' : List Span} {s : Span}
    {stop : Except QueryError Lexeme} (h : Lexes o cs (spans ++ s :: spans') stop) :
    ∃ before after x, cs = before ++ (s.chars ++ after) ∧ s.start = o + width before ∧
      Lexes o before spans (.ok x) ∧ s.lexeme.token.Covers s.chars ∧
      (s.lexeme.token.isRun = true →
        (∀ c ∈ before.getLast?, isWordChar c = false) ∧ Bounded after) := by
  induction spans generalizing o cs with
  | nil =>
    cases h with
    | @token _ blanks chars rest t _ _ hblanks hcovers hrun _ =>
      refine ⟨blanks, rest, _, rfl, rfl, .done hblanks, hcovers, fun ht => ⟨?_, hrun ht⟩⟩
      intro c hc
      exact isWordChar_of_isSeparator (hblanks c (List.mem_of_getLast? hc))
  | cons first spans ih =>
    cases h with
    | @token _ blanks chars rest t _ _ hblanks hcovers hrun hrest =>
      obtain ⟨before, after, x, rfl, hstart, hbefore, hs, hends⟩ := ih hrest
      have hinitial : before <+: before ++ (s.chars ++ after) := List.prefix_append _ _
      refine ⟨blanks ++ (chars ++ before), after, x, by simp, by simp [hstart, Nat.add_assoc],
        .token hblanks hcovers (fun ht => (hrun ht).initial hinitial) hbefore, hs,
        fun hsrun => ⟨?_, (hends hsrun).2⟩⟩
      cases before with
      | nil =>
        -- The two spans touch. If the first one were a run too, it would go on into the second.
        have ht : t.isRun = false :=
          Bool.eq_false_iff.mpr fun ht => hs.not_bounded hsrun after (hrun ht)
        intro c hc
        refine hcovers.getLast?_of_not_isRun ht c ?_
        rwa [List.append_nil, List.getLast?_append, Option.or_of_isSome
          (List.getLast?_isSome.mpr hcovers.ne_nil)] at hc
      | cons d before =>
        intro c hc
        refine (hends hsrun).1 c ?_
        simpa [List.getLast?_append] using hc

/-- No two lexemes of a text stand at one place. -/
theorem nodup_positions (text : String) :
    ((ofString text).lexemes.1.map Lexeme.position).Nodup := by
  obtain ⟨spans, stop, h⟩ := Lexes.exists_lexes text.toList 0
  have hlexemes : (ofString text).lexemes = _ := h.lexemes_eq
  have hstarts : spans.Pairwise fun s s' => s.start ≠ s'.start :=
    h.ordered.imp_of_mem fun {s s'} hs _ hle => by
      have := (h.stands_text s hs).start_lt_stop
      omega
  rw [hlexemes, List.map_map]
  exact List.pairwise_map.mpr hstarts

/-! ## Longest runs -/

/-- The characters `w` stand in the text as a longest run of word characters, and lexing comes to
them: what stands before them is lexed to its end, so that no quotation is open there. -/
structure LongestRun (text : String) (before w after : List Char) : Prop where
  toList_eq : text.toList = before ++ (w ++ after)
  reached : ∃ xs x, (ofString (String.ofList before)).lexemes = (xs, .ok x)
  ne_nil : w ≠ []
  isWordChar : ∀ c ∈ w, isWordChar c = true
  starts : ∀ c ∈ before.getLast?, Token.isWordChar c = false
  ends : Bounded after

namespace LongestRun

variable {text : String} {before w after : List Char}

/-- A longest run is one lexeme. -/
theorem mem_lexemes (h : LongestRun text before w after) :
    (⟨ofWord w, width before⟩ : Lexeme) ∈ (ofString text).lexemes.1 := by
  obtain ⟨xs, x, hxs⟩ := h.reached
  rw [ofString, String.toList_ofList] at hxs
  obtain ⟨spans, rfl, hbefore⟩ := lexemes_eq_iff.mp hxs
  obtain ⟨later, stop, hlater⟩ := Lexes.exists_lexes after (0 + width before + width w)
  have hall := hbefore.append_covers (.run h.ne_nil h.isWordChar) (.inl h.starts)
    (fun _ => h.ends) hlater
  rw [ofString, h.toList_eq, hall.lexemes_eq]
  simp

/-- Nothing else is a lexeme at that place. -/
theorem mem_lexemes_iff (h : LongestRun text before w after) {t : Token} :
    (⟨t, width before⟩ : Lexeme) ∈ (ofString text).lexemes.1 ↔ t = ofWord w := by
  constructor
  · intro hmem
    have hx := List.inj_on_of_nodup_map (nodup_positions text) hmem h.mem_lexemes rfl
    exact congrArg Lexeme.token hx
  · rintro rfl
    exact h.mem_lexemes

/-- A run between parentheses. -/
theorem parenthesized (hne : w ≠ []) (hw : ∀ c ∈ w, Token.isWordChar c = true) :
    LongestRun (String.ofList ('(' :: (w ++ [')']))) ['('] w [')'] where
  toList_eq := String.toList_ofList
  reached := by
    have hn : (ofString "(").next = .ok (⟨.symbol '(', 0⟩, ⟨[], 1, none⟩) := rfl
    exact ⟨_, _, (lexemes_of_next hn (by decide)).trans
      (by rw [lexemes_of_eof (next_mk_nil 1) rfl])⟩
  ne_nil := hne
  isWordChar := hw
  starts c hc := by
    obtain rfl : '(' = c := Option.some.inj hc
    decide
  ends := bounded_cons (by decide) []

end LongestRun

/-- Every word and every number of a text is a longest run. -/
theorem exists_longestRun {text : String} {x : Lexeme} (hx : x ∈ (ofString text).lexemes.1)
    (hrun : x.token.isRun = true) : ∃ before w after, LongestRun text before w after ∧
      x = ⟨ofWord w, width before⟩ := by
  obtain ⟨spans, stop, h⟩ := Lexes.exists_lexes text.toList 0
  have hlexemes : (ofString text).lexemes = _ := h.lexemes_eq
  rw [hlexemes] at hx
  obtain ⟨s, hs, rfl⟩ := List.mem_map.mp hx
  obtain ⟨earlier, later, rfl⟩ := List.append_of_mem hs
  obtain ⟨before, after, x, htext, hstart, hbefore, hcovers, hends⟩ := h.exists_before
  have hreached : (ofString (String.ofList before)).lexemes =
      (earlier.map Span.lexeme, .ok x) := by
    rw [ofString, String.toList_ofList]
    exact hbefore.lexemes_eq
  refine ⟨before, s.chars, after, ⟨htext, ⟨_, x, hreached⟩, hcovers.ne_nil,
    hcovers.isWordChar hrun, (hends hrun).1, (hends hrun).2⟩, ?_⟩
  have htoken := hcovers.eq_ofWord hrun
  have hposition : s.lexeme.position = width before := by
    rw [← Nat.zero_add (width before)]
    exact hstart
  rw [← htoken, ← hposition]

end Lexer

end CalendarQuery

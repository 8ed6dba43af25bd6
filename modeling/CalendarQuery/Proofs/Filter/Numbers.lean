import CalendarQuery.Proofs.Filter.Text
import CalendarQuery.Proofs.Token.Number

/-!
# Numbers are read exactly

A number of an expression is the value of its numeral, and the numbers that a filter holds are those
that are read in its text, the least and the greatest included.

* `Filter.numbers`: the numbers of a filter in the order of its text.
* `Filter.filterMap_tokens`: they are those of its tokens.
* `Lexer.numbers_exact`: which words of a text are numbers, and which number each of them is.
-/

namespace CalendarQuery

/-- The value of a number. -/
def Token.number? : Token → Option Int64
  | .number n => some n
  | _ => none

/-- The number that an operand is. -/
def Operand.number? : Operand → Option Int64
  | .number n => some n
  | .text _ => none

/-- The numbers among the indexes of a path. -/
def PropertyPath.numbers (path : PropertyPath) : List Int64 :=
  path.segments.flatMap fun s => s.number.toList

namespace Filter

mutual

/-- The numbers that a filter is written with, as indexes and operands, in their order. A view is
written by its name alone. -/
def numbers : Filter → List Int64
  | .and _ children => numbersEach children
  | .or children => numbersEach children
  | .compare path _ operand _ _ _ _ => path.numbers ++ operand.number?.toList
  | .presence path _ => path.numbers
  | .timeRange path _ _ => path.numbers
  | .entity _ | .view .. => []

/-- The numbers of several filters. -/
def numbersEach : List Filter → List Int64
  | [] => []
  | f :: fs => numbers f ++ numbersEach fs

end

end Filter

/-! ## The numbers among written tokens -/

theorem PathSegment.filterMap_indexTokens (s : PathSegment) :
    s.indexTokens.filterMap Token.number? = s.number.toList := by
  obtain ⟨p, _ | n, _ | k⟩ := s <;> rfl

namespace PropertyPath

theorem filterMap_tailTokens (ss : List PathSegment) :
    (tailTokens ss).filterMap Token.number? = ss.flatMap fun s => s.number.toList := by
  induction ss with
  | nil => rfl
  | cons s ss ih =>
    have htokens : tailTokens (s :: ss) =
        .symbol '.' :: .word s.property.spelling :: (s.indexTokens ++ tailTokens ss) := rfl
    rw [htokens, List.filterMap_cons_none rfl, List.filterMap_cons_none rfl,
      List.filterMap_append, s.filterMap_indexTokens, ih, List.flatMap_cons]

theorem filterMap_tokens (path : PropertyPath) :
    path.tokens.filterMap Token.number? = path.numbers := by
  rw [tokens, furtherTokens, List.filterMap_cons_none rfl, List.filterMap_append,
    path.head.filterMap_indexTokens, filterMap_tailTokens, numbers, segments, List.flatMap_cons]

end PropertyPath

theorem Comparator.filterMap_tokens (c : Comparator) : c.tokens.filterMap Token.number? = [] := by
  cases c <;> rfl

theorem Operand.filterMap_token (o : Operand) :
    [o.token].filterMap Token.number? = o.number?.toList := by
  cases o <;> rfl

namespace Filter

theorem filterMap_boundTokens (bound : Option Stamp) :
    (boundTokens bound).filterMap Token.number? = [] := by
  cases bound <;> rfl

/-- Parentheses are no numbers. -/
theorem filterMap_encloseTokens (f : Filter) (ts : List Token) :
    (encloseTokens f ts).filterMap Token.number? = ts.filterMap Token.number? := by
  unfold encloseTokens
  split
  · rw [List.filterMap_cons_none rfl, List.filterMap_append, List.filterMap_cons_none rfl,
      List.filterMap_nil, List.append_nil]
  · rfl

mutual

theorem filterMap_tokens (f : Filter) : f.tokens.filterMap Token.number? = f.numbers := by
  cases f with
  | and name children => exact filterMap_groupTokens .and children
  | or children => exact filterMap_groupTokens .or children
  | compare path operator operand exact negate caseless isPrefix =>
    rw [tokens, List.filterMap_append, List.filterMap_append, path.filterMap_tokens,
      operator.filterMap_tokens, operand.filterMap_token, List.nil_append, numbers]
  | presence path isPresent =>
    rw [tokens, List.filterMap_append, path.filterMap_tokens, Comparator.filterMap_tokens,
      List.append_nil, numbers]
  | entity kind => rfl
  | timeRange path first last =>
    rw [tokens, List.filterMap_append, path.filterMap_tokens, List.filterMap_cons_none rfl,
      List.filterMap_append, filterMap_boundTokens, List.filterMap_cons_none rfl,
      filterMap_boundTokens, List.append_nil, List.append_nil, numbers]
  | view name filter => rfl

theorem filterMap_groupTokens (op : LogicalOp) (fs : List Filter) :
    (groupTokens op fs).filterMap Token.number? = numbersEach fs := by
  cases fs with
  | nil => rfl
  | cons f fs =>
    cases fs with
    | nil =>
      rw [groupTokens, filterMap_encloseTokens, filterMap_tokens f, numbersEach, numbersEach,
        List.append_nil]
    | cons g fs =>
      rw [groupTokens, List.filterMap_append, filterMap_encloseTokens, filterMap_tokens f,
        List.filterMap_cons_none rfl, filterMap_groupTokens op (g :: fs)]
      rfl

end

end Filter

namespace Lexer

open Token TokenStream

/-- The numbers that are read in the text of a filter are those of the filter. -/
theorem numbers_text (f : Filter) :
    (ofString f.text).lexemes.1.filterMap (fun x => x.token.number?) = f.numbers := by
  have htokens : (ofString f.text).lexemes.1.map Lexeme.token = f.tokens := by
    have hstream := congrArg TokenStream.tokens (ofString_text f)
    rwa [append, done, List.append_nil] at hstream
  rw [← f.filterMap_tokens, ← htokens, List.filterMap_map]
  rfl

/-- Integers are exact up to the limits. Where lexing comes to a longest run of word characters,
the run is the number `n` if and only if it is a numeral of the value `n`, and a word with the same
characters if and only if it is no numeral or one whose value is out of the signed 64-bit range.
There are no other numbers. So every number is read back from its text wherever that stands on its
own, and the numbers in the text of a filter are those that the filter has as indexes and
operands. -/
theorem numbers_exact :
    (∀ (text : String) (before w after : List Char), LongestRun text before w after →
      (∀ n : Int64, (⟨.number n, width before⟩ : Lexeme) ∈ (ofString text).lexemes.1 ↔
        Text.Numeral w n.toInt) ∧
      ∀ s : String, (⟨.word s, width before⟩ : Lexeme) ∈ (ofString text).lexemes.1 ↔
        s = String.ofList w ∧
          ∀ z, Text.Numeral w z → z < Int64.minValue.toInt ∨ Int64.maxValue.toInt < z) ∧
    (∀ (text : String) (n : Int64) (position : Nat),
      (⟨.number n, position⟩ : Lexeme) ∈ (ofString text).lexemes.1 →
      ∃ before w after, LongestRun text before w after ∧ position = width before) ∧
    (∀ (n : Int64) (text : String) (before after : List Char),
      LongestRun text before (Operand.number n).render.toList after →
      (⟨.number n, width before⟩ : Lexeme) ∈ (ofString text).lexemes.1) ∧
    ∀ f : Filter,
      (ofString f.text).lexemes.1.filterMap (fun x => x.token.number?) = f.numbers := by
  have hnumber : ∀ {text : String} {before w after : List Char} (n : Int64),
      LongestRun text before w after →
      ((⟨.number n, width before⟩ : Lexeme) ∈ (ofString text).lexemes.1 ↔
        Text.Numeral w n.toInt) := fun n hrun => by
    rw [hrun.mem_lexemes_iff, eq_comm, ofWord_eq_number_iff]
  refine ⟨fun text before w after hrun => ⟨fun n => hnumber n hrun, fun s => ?_⟩,
    fun text n position hmem => ?_, fun n text before after hrun => ?_, numbers_text⟩
  · rw [hrun.mem_lexemes_iff, eq_comm, ofWord_eq_word_iff]
  · obtain ⟨before, w, after, hrun, hx⟩ := exists_longestRun hmem rfl
    exact ⟨before, w, after, hrun, congrArg Lexeme.position hx⟩
  · exact (hnumber n hrun).mpr (Text.numeral_decimal n.toInt)

/-- The least number, the greatest one behind zeros, and the two words next to them. -/
theorem numbers_exact_limits :
    let least := "-9223372036854775808".toList
    let greatest := "+0009223372036854775807".toList
    let below := "-9223372036854775809".toList
    let above := "9223372036854775808".toList
    let enclosed (w : List Char) : String := String.ofList ('(' :: (w ++ [')']))
    (∀ w ∈ [least, greatest, below, above], LongestRun (enclosed w) ['('] w [')']) ∧
      (⟨.number (-9223372036854775808), 1⟩ : Lexeme) ∈ (ofString (enclosed least)).lexemes.1 ∧
      (⟨.number 9223372036854775807, 1⟩ : Lexeme) ∈ (ofString (enclosed greatest)).lexemes.1 ∧
      (⟨.word "-9223372036854775809", 1⟩ : Lexeme) ∈ (ofString (enclosed below)).lexemes.1 ∧
      (⟨.word "9223372036854775808", 1⟩ : Lexeme) ∈ (ofString (enclosed above)).lexemes.1 := by
  intro least greatest below above enclosed
  have hruns : ∀ w ∈ [least, greatest, below, above], LongestRun (enclosed w) ['('] w [')'] := by
    have hchars : ([least, greatest, below, above].all fun w =>
        !w.isEmpty && w.all isWordChar) = true := by decide
    intro w hw
    obtain ⟨hne, hword⟩ := Bool.and_eq_true_iff.mp (List.all_eq_true.mp hchars w hw)
    exact .parenthesized (by simpa using hne) (List.all_eq_true.mp hword)
  obtain ⟨hwords, -, -, -⟩ := numbers_exact
  have hlexemes := fun w hw => hwords _ _ _ _ (hruns w hw)
  refine ⟨hruns, ?_, ?_, ?_, ?_⟩
  · exact ((hlexemes least (by simp)).1 _).mpr (Text.int?_eq_some_iff.mp (by decide))
  · exact ((hlexemes greatest (by simp)).1 _).mpr (Text.int?_eq_some_iff.mp (by decide))
  · refine ((hlexemes below (by simp)).2 _).mpr ⟨by decide, fun z hz => ?_⟩
    have hbelow : Text.Numeral below (-9223372036854775809) := Text.int?_eq_some_iff.mp (by decide)
    exact .inl (by rw [hz.unique hbelow]; decide)
  · refine ((hlexemes above (by simp)).2 _).mpr ⟨by decide, fun z hz => ?_⟩
    have habove : Text.Numeral above 9223372036854775808 := Text.int?_eq_some_iff.mp (by decide)
    exact .inr (by rw [hz.unique habove]; decide)

end Lexer

end CalendarQuery

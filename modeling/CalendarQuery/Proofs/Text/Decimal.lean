import CalendarQuery.Text.Decimal
import CalendarQuery.Token

/-!
# Written numbers read back

The digits that are written for a number stand for that number, with or without zeros before them.

* `natOfDigits_padded`, `length_padded`: the value and the width of a padded number.
* `int64?_decimal`: a signed 64-bit number reads back, the least one included.
* `ofWord_decimal`: so it is one token.
-/

namespace CalendarQuery.Text

theorem isDigit_eq (c : Char) : isDigit c = c.isDigit := by
  simp only [isDigit, Char.isDigit, Char.le_def]

theorem natOfDigits_eq_ofDigitChars (cs : List Char) :
    natOfDigits cs = Nat.ofDigitChars 10 cs 0 := by
  rw [Nat.ofDigitChars_eq_foldl]
  rfl

theorem natOfDigits_toDigits (n : Nat) : natOfDigits (Nat.toDigits 10 n) = n := by
  rw [natOfDigits_eq_ofDigitChars, Nat.ofDigitChars_ten_toDigits]

/-- Zeros before the digits do not count. -/
theorem natOfDigits_replicate_append (k : Nat) (cs : List Char) :
    natOfDigits (List.replicate k '0' ++ cs) = natOfDigits cs := by
  rw [natOfDigits_eq_ofDigitChars, Nat.ofDigitChars_append, Nat.ofDigitChars_replicate_zero,
    Nat.mul_zero, natOfDigits_eq_ofDigitChars]

theorem toList_padded (width n : Nat) : (padded width n).toList =
    List.replicate (width - (Nat.toDigits 10 n).length) '0' ++ Nat.toDigits 10 n := by
  simp [padded]

theorem natOfDigits_padded (width n : Nat) : natOfDigits (padded width n).toList = n := by
  rw [toList_padded, natOfDigits_replicate_append, natOfDigits_toDigits]

theorem isDigit_of_mem_padded {width n : Nat} {c : Char} (h : c ∈ (padded width n).toList) :
    isDigit c = true := by
  rw [toList_padded] at h
  rcases List.mem_append.mp h with hz | hd
  · rw [List.eq_of_mem_replicate hz]; decide
  · rw [isDigit_eq]; exact Nat.isDigit_of_mem_toDigits (by decide) (by decide) hd

theorem padded_ne_nil (width n : Nat) : (padded width n).toList ≠ [] := by
  rw [toList_padded]
  simp [Nat.toDigits_ne_nil]

/-- A number below `10 ^ width` is written with exactly `width` digits. -/
theorem length_padded {width n : Nat} (hw : 0 < width) (hn : n < Nat.pow 10 width) :
    (padded width n).toList.length = width := by
  have hlen := (Nat.length_toDigits_le_iff (by decide) hw).mpr hn
  rw [toList_padded]
  simp only [List.length_append, List.length_replicate]
  omega

theorem isDigit_or_minus_of_mem_decimal {n : Int} {c : Char} (h : c ∈ (decimal n).toList) :
    isDigit c = true ∨ c = '-' := by
  unfold decimal at h
  split at h
  · rw [String.toList_append, List.mem_append] at h
    rcases h with hm | hd
    · exact .inr (by simpa using hm)
    · exact .inl (isDigit_of_mem_padded hd)
  · exact .inl (isDigit_of_mem_padded h)

theorem decimal_ne_nil (n : Int) : (decimal n).toList ≠ [] := by
  unfold decimal
  split
  · simp
  · exact padded_ne_nil 1 _

/-- A digit is no sign. -/
theorem splitSign_of_isDigit {c : Char} (cs : List Char) (h : isDigit c = true) :
    splitSign (c :: cs) = (false, c :: cs) := by
  unfold splitSign
  split
  · rename_i hc; obtain ⟨rfl, -⟩ := List.cons.inj hc; simp [isDigit] at h
  · rename_i hc; obtain ⟨rfl, -⟩ := List.cons.inj hc; simp [isDigit] at h
  · rfl

theorem splitSign_padded (width n : Nat) :
    splitSign (padded width n).toList = (false, (padded width n).toList) := by
  obtain ⟨c, cs, h⟩ := List.exists_cons_of_ne_nil (padded_ne_nil width n)
  have hc : isDigit c = true := isDigit_of_mem_padded (by rw [h]; exact List.mem_cons_self)
  rw [h, splitSign_of_isDigit cs hc]

theorem int?_decimal (n : Int) : int? (decimal n).toList = some n := by
  have hall : ∀ k, (padded 1 k).toList.all isDigit = true :=
    fun k => List.all_eq_true.mpr fun _ => isDigit_of_mem_padded
  have hempty : ∀ k, (padded 1 k).toList.isEmpty = false :=
    fun k => List.isEmpty_eq_false_iff.mpr (padded_ne_nil 1 k)
  by_cases hn : n < 0
  · have hsign : splitSign (decimal n).toList = (true, (padded 1 n.natAbs).toList) := by
      simp [decimal, hn, splitSign]
    have habs : -(n.natAbs : Int) = n := by omega
    simp only [int?, hsign, hall, hempty, natOfDigits_padded, habs]
    rfl
  · have hchars : (decimal n).toList = (padded 1 n.natAbs).toList := by simp [decimal, hn]
    have habs : (n.natAbs : Int) = n := by omega
    simp only [int?, hchars, splitSign_padded, hall, hempty, natOfDigits_padded, habs]
    rfl

theorem int64?_decimal (n : Int64) : int64? (decimal n.toInt).toList = some n := by
  have hrange : Int64.minValue.toInt ≤ n.toInt ∧ n.toInt ≤ Int64.maxValue.toInt :=
    ⟨Int64.minValue_le_toInt n, Int64.toInt_le n⟩
  simp only [int64?, int?_decimal, bind, Option.bind, if_pos hrange, Int64.ofInt_toInt]

end CalendarQuery.Text

namespace CalendarQuery.Token

theorem isWordChar_of_isDigit {c : Char} (h : Text.isDigit c = true) : isWordChar c = true := by
  have hclass : ∀ d, isSymbolChar d = true ∨ isQuote d = true → Text.isDigit d = false := by
    have hsymbols : (symbolChars.all fun d => !Text.isDigit d) = true := by decide
    intro d hd
    rcases hd with hs | hq
    · simpa using List.all_eq_true.mp hsymbols d (by simpa [isSymbolChar] using hs)
    · simp only [isQuote, Bool.or_eq_true, beq_iff_eq] at hq
      rcases hq with rfl | rfl <;> decide
  have hsep : isSeparator c = false := by
    simp only [Text.isDigit, Bool.and_eq_true, decide_eq_true_eq] at h
    simp only [isSeparator, decide_eq_false_iff_not]
    intro hle
    exact absurd (Char.le_trans h.1 hle) (by decide)
  have hsym : isSymbolChar c = false :=
    Bool.eq_false_iff.mpr fun hs => by simp [hclass c (.inl hs)] at h
  have hquote : isQuote c = false :=
    Bool.eq_false_iff.mpr fun hq => by simp [hclass c (.inr hq)] at h
  simp [isWordChar, hsep, hsym, hquote]

theorem isWordChar_of_mem_decimal {n : Int} {c : Char} (h : c ∈ (Text.decimal n).toList) :
    isWordChar c = true := by
  rcases Text.isDigit_or_minus_of_mem_decimal h with hd | rfl
  · exact isWordChar_of_isDigit hd
  · decide

theorem ofWord_decimal (n : Int64) : ofWord (Text.decimal n.toInt).toList = .number n := by
  rw [ofWord, Text.int64?_decimal]

end CalendarQuery.Token

import CalendarQuery.Proofs.Text.Decimal

/-!
# Numerals

A numeral is an optional sign and one or more digits, as many zeros in front as there may be. Its
value is said here by the places of its digits, and reading gives exactly that value.

* `Numeral`: the numerals with their values.
* `int?_eq_some_iff`: the texts that are read as integers are the numerals.
* `int64?_eq_some_iff`, `int64?_eq_none_iff`: a numeral is read as a signed 64-bit number if its
  value is one, and otherwise not at all.
* `numeral_decimal`: the text of an integer is a numeral of that integer.
-/

namespace CalendarQuery.Text

/-- Digits as characters. -/
def digitChars (ds : List (Fin 10)) : List Char := ds.map fun d => Nat.digitChar d.val

/-- The value of digits, each of which counts by its place. -/
def positional : List (Fin 10) → Nat
  | [] => 0
  | d :: ds => d.val * Nat.pow 10 ds.length + positional ds

/-- The characters are an optional sign and one or more digits, and the integer is their value. -/
inductive Numeral : List Char → Int → Prop
  | unsigned {ds : List (Fin 10)} : ds ≠ [] → Numeral (digitChars ds) (positional ds)
  | plus {ds : List (Fin 10)} : ds ≠ [] → Numeral ('+' :: digitChars ds) (positional ds)
  | minus {ds : List (Fin 10)} : ds ≠ [] → Numeral ('-' :: digitChars ds) (-(positional ds : Int))

/-! ## Digits -/

theorem isDigit_digitChar (d : Fin 10) : isDigit (Nat.digitChar d.val) = true := by
  revert d
  decide

theorem digitValue_digitChar (d : Fin 10) : digitValue (Nat.digitChar d.val) = d.val := by
  revert d
  decide

theorem exists_digit {c : Char} (h : isDigit c = true) : ∃ d : Fin 10, Nat.digitChar d.val = c := by
  have hchar : ∀ d : Fin 10, Nat.digitChar d.val = Char.ofNat (48 + d.val) := by decide
  rw [isDigit_eq, Char.isDigit_iff_toNat] at h
  obtain ⟨hle, hge⟩ : 48 ≤ c.toNat ∧ c.toNat ≤ 57 := h
  refine ⟨⟨c.toNat - 48, by omega⟩, ?_⟩
  have hcode : 48 + (c.toNat - 48) = c.toNat := by omega
  rw [hchar, hcode, Char.ofNat_toNat]

theorem exists_digits {cs : List Char} (h : ∀ c ∈ cs, isDigit c = true) :
    ∃ ds, digitChars ds = cs := by
  induction cs with
  | nil => exact ⟨[], rfl⟩
  | cons c cs ih =>
    obtain ⟨hc, hcs⟩ := List.forall_mem_cons.mp h
    obtain ⟨d, rfl⟩ := exists_digit hc
    obtain ⟨ds, rfl⟩ := ih hcs
    exact ⟨d :: ds, rfl⟩

theorem isDigit_of_mem_digitChars {ds : List (Fin 10)} {c : Char} (hc : c ∈ digitChars ds) :
    isDigit c = true := by
  obtain ⟨d, -, rfl⟩ := List.mem_map.mp hc
  exact isDigit_digitChar d

/-- A digit in front counts by the number of digits behind it. -/
theorem natOfDigits_cons (c : Char) (cs : List Char) :
    natOfDigits (c :: cs) = digitValue c * Nat.pow 10 cs.length + natOfDigits cs := by
  rw [natOfDigits_eq_ofDigitChars, Nat.ofDigitChars_cons, Nat.ofDigitChars_eq_ofDigitChars_zero,
    ← natOfDigits_eq_ofDigitChars, Nat.mul_zero, Nat.zero_add, Nat.mul_comm]
  rfl

/-- Reading digits from the left gives the value that their places say. -/
theorem natOfDigits_digitChars (ds : List (Fin 10)) :
    natOfDigits (digitChars ds) = positional ds := by
  induction ds with
  | nil => rfl
  | cons d ds ih =>
    have hchars : digitChars (d :: ds) = Nat.digitChar d.val :: digitChars ds := rfl
    have hlength : (digitChars ds).length = ds.length := List.length_map _
    rw [hchars, natOfDigits_cons, digitValue_digitChar, hlength, ih, positional]

/-! ## Reading numerals -/

variable {cs : List Char}

theorem splitSign_digitChars {ds : List (Fin 10)} (hne : ds ≠ []) :
    splitSign (digitChars ds) = (false, digitChars ds) := by
  cases ds with
  | nil => exact absurd rfl hne
  | cons d ds => exact splitSign_of_isDigit _ (isDigit_digitChar d)

/-- What stands before the digits is a sign or nothing. -/
theorem splitSign_eq {negative : Bool} {digits : List Char}
    (h : splitSign cs = (negative, digits)) : (negative = true ∧ cs = '-' :: digits) ∨
      negative = false ∧ (cs = '+' :: digits ∨ cs = digits) := by
  unfold splitSign at h
  split at h
  · cases h
    exact .inl ⟨rfl, rfl⟩
  · cases h
    exact .inr ⟨rfl, .inl rfl⟩
  · cases h
    exact .inr ⟨rfl, .inr rfl⟩

/-- Digits behind a sign are read as their value under that sign. -/
theorem int?_of_splitSign {negative : Bool} {ds : List (Fin 10)}
    (hsign : splitSign cs = (negative, digitChars ds)) (hne : ds ≠ []) :
    int? cs = some (if negative then -(positional ds : Int) else positional ds) := by
  have hall : (digitChars ds).all isDigit = true :=
    List.all_eq_true.mpr fun _ => isDigit_of_mem_digitChars
  have hempty : (digitChars ds).isEmpty = false := by simpa [digitChars] using hne
  simp only [int?, hsign, hall, hempty, natOfDigits_digitChars]
  rfl

theorem int?_eq_some_iff {z : Int} : int? cs = some z ↔ Numeral cs z := by
  constructor
  · intro h
    rcases hsign : splitSign cs with ⟨negative, digits⟩
    -- What is left behind the sign must be digits, so a second sign is refused.
    have hdigits : digits ≠ [] ∧ ∀ c ∈ digits, isDigit c = true := by
      simp only [int?, hsign] at h
      split at h
      · cases h
      · rename_i hread
        simpa using hread
    obtain ⟨ds, rfl⟩ := exists_digits hdigits.2
    have hne : ds ≠ [] := by simpa [digitChars] using hdigits.1
    rw [int?_of_splitSign hsign hne] at h
    cases h
    obtain ⟨rfl, rfl⟩ | ⟨rfl, rfl | rfl⟩ := splitSign_eq hsign
    · exact .minus hne
    · exact .plus hne
    · exact .unsigned hne
  · intro h
    cases h with
    | unsigned hne => exact int?_of_splitSign (splitSign_digitChars hne) hne
    | @plus ds hne =>
      have hsign : splitSign ('+' :: digitChars ds) = (false, digitChars ds) := rfl
      exact int?_of_splitSign hsign hne
    | @minus ds hne =>
      have hsign : splitSign ('-' :: digitChars ds) = (true, digitChars ds) := rfl
      exact int?_of_splitSign hsign hne

/-- A numeral has one value. -/
theorem Numeral.unique {y z : Int} (hy : Numeral cs y) (hz : Numeral cs z) : y = z :=
  Option.some.inj ((int?_eq_some_iff.mpr hy).symm.trans (int?_eq_some_iff.mpr hz))

theorem numeral_decimal (z : Int) : Numeral (decimal z).toList z :=
  int?_eq_some_iff.mp (int?_decimal z)

/-! ## The signed 64-bit range -/

theorem int64?_of_numeral {z : Int} (h : Numeral cs z) : int64? cs =
    if Int64.minValue.toInt ≤ z ∧ z ≤ Int64.maxValue.toInt then some (Int64.ofInt z) else none := by
  simp only [int64?, int?_eq_some_iff.mpr h, bind, Option.bind]

theorem int64?_eq_some_iff {n : Int64} : int64? cs = some n ↔ Numeral cs n.toInt := by
  constructor
  · intro h
    obtain ⟨z, hz, -⟩ := Option.bind_eq_some_iff.mp h
    have hnumeral := int?_eq_some_iff.mp hz
    rw [int64?_of_numeral hnumeral] at h
    split at h
    · rename_i hrange
      rw [Int64.toInt_minValue, Int64.toInt_maxValue] at hrange
      cases h
      rwa [Int64.toInt_ofInt_of_le hrange.1 (by omega)]
    · cases h
  · intro h
    have hrange : Int64.minValue.toInt ≤ n.toInt ∧ n.toInt ≤ Int64.maxValue.toInt :=
      ⟨n.minValue_le_toInt, n.toInt_le⟩
    rw [int64?_of_numeral h, if_pos hrange, Int64.ofInt_toInt]

/-- A text is no signed 64-bit number if it is no numeral, or one whose value is out of range. -/
theorem int64?_eq_none_iff : int64? cs = none ↔
    ∀ z, Numeral cs z → z < Int64.minValue.toInt ∨ Int64.maxValue.toInt < z := by
  constructor
  · intro h z hz
    rw [int64?_of_numeral hz] at h
    by_cases hrange : Int64.minValue.toInt ≤ z ∧ z ≤ Int64.maxValue.toInt
    · rw [if_pos hrange] at h
      cases h
    · omega
  · intro h
    cases hint : int64? cs with
    | none => rfl
    | some n =>
      have hleast := n.minValue_le_toInt
      have hgreatest := n.toInt_le
      have hout := h _ (int64?_eq_some_iff.mp hint)
      omega

end CalendarQuery.Text

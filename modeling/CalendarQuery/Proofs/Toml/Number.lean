import CalendarQuery.Proofs.Text.Decimal
import CalendarQuery.Proofs.Text.Scanner
import CalendarQuery.Toml.Number
import CalendarQuery.Toml.Writer

/-!
# Written numbers as values

A number is written with its decimal digits. At the end of a line these are an integer, and nothing
else that a value may be.

* `Digits`: a text with digits up to the end of a line.
* `time_of_digits`, `float_of_digits`: digits are neither a time nor a float.
* `integer_padded`: they are the number.
* `Fits`: the numbers that are written.
* `Value.natural?_ofInt`, `Value.fits_of_natural?`: they are the natural numbers that are read.
-/

namespace CalendarQuery.Toml

open Scanner

/-! ## Digits up to the end of a line -/

/-- Digits, perhaps none, up to the end of a line. -/
def Digits (cs : List Char) : Prop :=
  ∃ ds rest, cs = ds ++ '\n' :: rest ∧ ∀ c ∈ ds, c.isDigit = true

namespace Digits

variable {α : Type} {cs : List Char}

theorem tail {c : Char} (h : Digits (c :: cs)) (hc : c ≠ '\n') : Digits cs := by
  obtain ⟨ds, rest, heq, hds⟩ := h
  cases ds with
  | nil => exact absurd (List.cons.inj heq).1 hc
  | cons d ds =>
    exact ⟨ds, rest, (List.cons.inj heq).2, fun e he => hds e (List.mem_cons_of_mem d he)⟩

/-- Nothing else comes next. -/
theorem head {c : Char} (h : Digits (c :: cs)) : c.isDigit = true ∨ c = '\n' := by
  obtain ⟨ds, rest, heq, hds⟩ := h
  cases ds with
  | nil => exact .inr (List.cons.inj heq).1
  | cons d ds =>
    obtain ⟨rfl, -⟩ := List.cons.inj heq
    exact .inl (hds _ List.mem_cons_self)

theorem satisfy {test : Char → Bool} (h : Digits cs)
    (htest : ∀ c, c.isDigit = true ∨ c = '\n' → test c = false) :
    Scanner.satisfy test cs = none := by
  cases cs with
  | nil => rfl
  | cons c cs => simp [htest c h.head]

theorem char {c : Char} (h : Digits cs) (hc : c.isDigit = false) (hnl : c ≠ '\n') :
    Scanner.char c cs = none := by
  cases cs with
  | nil => rfl
  | cons d cs =>
    have hne : d ≠ c := by
      rintro rfl
      rcases h.head with hdigit | heq
      · simp [hc] at hdigit
      · exact hnl heq
    simp [hne]

/-- What is read of the digits leaves digits. -/
theorem times (h : Digits cs) (k : Nat) :
    ∀ x mid, Scanner.times (Scanner.satisfy Char.isDigit) k cs = some (x, mid) → Digits mid := by
  induction k generalizing cs with
  | zero =>
    intro x mid hread
    cases hread
    exact h
  | succ k ih =>
    intro x mid hread
    cases cs with
    | nil => simp [Scanner.times] at hread
    | cons c cs =>
      by_cases hc : c.isDigit = true
      · have hnl : c ≠ '\n' := by rintro rfl; simp [Char.isDigit] at hc
        simp only [Scanner.times, bind_apply, satisfy_cons, if_pos hc, Option.bind_some,
          pure_apply] at hread
        obtain ⟨⟨y, last⟩, hothers, heq⟩ := Option.bind_eq_some_iff.mp hread
        cases heq
        exact ih (h.tail hnl) y last hothers
      · simp [Scanner.times, hc] at hread

/-- No mark comes after digits. -/
theorem bind_char {β : Type} (p : Scanner α) (hp : ∀ x mid, p cs = some (x, mid) → Digits mid)
    {mark : Char} (hmark : mark.isDigit = false) (hnl : mark ≠ '\n') (f : α → Scanner β) :
    (do let x ← p; Scanner.char mark; f x) cs = none := by
  cases hread : p cs with
  | none => simp [hread]
  | some x => simp [hread, (hp x.1 x.2 hread).char hmark hnl]

theorem numeral (h : Digits cs) (k n : Nat) (mid : List Char)
    (hread : Toml.numeral k cs = some (n, mid)) : Digits mid := by
  simp only [Toml.numeral, bind_apply, pure_apply] at hread
  obtain ⟨⟨x, last⟩, htimes, heq⟩ := Option.bind_eq_some_iff.mp hread
  cases heq
  exact h.times k x last htimes

theorem upTo (h : Digits cs) (greatest : Nat) (x : Unit) (mid : List Char)
    (hread : Toml.upTo greatest cs = some (x, mid)) : Digits mid := by
  simp only [Toml.upTo, bind_apply] at hread
  obtain ⟨⟨n, last⟩, hnumeral, hbound⟩ := Option.bind_eq_some_iff.mp hread
  split at hbound
  · cases hbound
    exact h.numeral 2 n last hnumeral
  · cases hbound

end Digits

/-! ## No other value -/

theorem time_of_digits {cs : List Char} (h : Digits cs) : time cs = none := by
  have hday : day cs = none := Digits.bind_char _ (h.numeral 4) (by decide) (by decide) _
  have htimeOfDay : timeOfDay cs = none :=
    Digits.bind_char _ (h.upTo 23) (by decide) (by decide) _
  simp [time, consumed, hday, htimeOfDay]

/-- Digits are read up to the end of the line. -/
theorem many_digits (ds rest : List Char) (hds : ∀ c ∈ ds, c.isDigit = true) :
    many (satisfy Char.isDigit <|> (char '_' *> satisfy Char.isDigit)) (ds ++ '\n' :: rest) =
      some (ds, '\n' :: rest) := by
  induction ds with
  | nil => exact many_of_none (by simp)
  | cons d ds ih =>
    have hd := hds d List.mem_cons_self
    have hround : (satisfy Char.isDigit <|> (char '_' *> satisfy Char.isDigit))
        (d :: ds ++ '\n' :: rest) = some (d, ds ++ '\n' :: rest) := by
      simp [hd]
    rw [many_of_some hround (by simp), ih fun c hc => hds c (List.mem_cons_of_mem d hc)]
    rfl

/-- The digits of a number other than zero start with no zero. -/
theorem head?_toDigits (n : Nat) (hn : n ≠ 0) : (Nat.toDigits 10 n).head? ≠ some '0' := by
  induction n using Nat.strongRecOn with
  | ind n ih =>
    by_cases hlt : n < 10
    · have hsmall : ∀ k < 10, k ≠ 0 → Nat.digitChar k ≠ '0' := by decide
      simpa [Nat.toDigits_of_lt_base hlt] using hsmall n hlt hn
    · obtain ⟨c, cs, hcs⟩ :=
        List.exists_cons_of_ne_nil (Nat.toDigits_ne_nil (n := n / 10) (b := 10))
      have hhead := ih (n / 10) (by omega) (by omega)
      rw [hcs] at hhead
      rw [Nat.toDigits_of_base_le (by decide) (by omega), hcs]
      exact hhead

theorem isDigit_of_mem_padded {n : Nat} {c : Char} (h : c ∈ (Text.padded 1 n).toList) :
    c.isDigit = true :=
  Text.isDigit_eq c ▸ Text.isDigit_of_mem_padded h

theorem digits_padded (n : Nat) (rest : List Char) :
    Digits ((Text.padded 1 n).toList ++ '\n' :: rest) :=
  ⟨_, rest, rfl, fun _ => isDigit_of_mem_padded⟩

/-- Either the one digit is a zero, or the first is none. -/
theorem padded_cases (n : Nat) : (Text.padded 1 n).toList = ['0'] ∨
    ∃ c cs, (Text.padded 1 n).toList = c :: cs ∧ c.isDigit = true ∧ c ≠ '0' := by
  have hchars : (Text.padded 1 n).toList = Nat.toDigits 10 n := by
    have hlen : 1 - (Nat.toDigits 10 n).length = 0 := by
      have := List.length_pos_iff.mpr (Nat.toDigits_ne_nil (n := n) (b := 10))
      omega
    rw [Text.toList_padded, hlen]
    rfl
  by_cases hn : n = 0
  · exact .inl (by rw [hchars, hn, Nat.toDigits_zero])
  · obtain ⟨c, cs, hcs⟩ := List.exists_cons_of_ne_nil (Text.padded_ne_nil 1 n)
    refine .inr ⟨c, cs, hcs, isDigit_of_mem_padded (hcs ▸ List.mem_cons_self), fun hc => ?_⟩
    have hhead := head?_toDigits n hn
    rw [← hchars, hcs, hc] at hhead
    exact hhead rfl

theorem decimalDigits_padded (n : Nat) (rest : List Char) :
    decimalDigits ((Text.padded 1 n).toList ++ '\n' :: rest) =
      some ((Text.padded 1 n).toList, '\n' :: rest) := by
  rcases padded_cases n with h | ⟨c, cs, h, hdigit, hc⟩
  · rw [h]
    rfl
  · have hmany := many_digits cs rest fun d hd =>
      isDigit_of_mem_padded (h ▸ List.mem_cons_of_mem c hd)
    simp [h, decimalDigits, digits, hdigit, hc, hmany]

theorem sign_of_digits {cs : List Char} (h : Digits cs) : sign cs = some ([], cs) := by
  have hsatisfy : satisfy (fun c => c == '+' || c == '-') cs = none := h.satisfy fun c hc => by
    rcases hc with hdigit | rfl
    · refine Bool.eq_false_iff.mpr fun hsign => ?_
      simp only [Bool.or_eq_true, beq_iff_eq] at hsign
      rcases hsign with rfl | rfl <;> simp [Char.isDigit] at hdigit
    · decide
  simp [sign, hsatisfy]

theorem float_of_digits (n : Nat) (rest : List Char) :
    float ((Text.padded 1 n).toList ++ '\n' :: rest) = none := by
  have h := digits_padded n rest
  have hfinite : finiteFloat ((Text.padded 1 n).toList ++ '\n' :: rest) = none := by
    simp [finiteFloat, sign_of_digits h, decimalDigits_padded, exponent, fraction]
  have hspecial : specialFloat ((Text.padded 1 n).toList ++ '\n' :: rest) = none := by
    simp [specialFloat, sign_of_digits h, h.char (c := 'i') (by decide) (by decide),
      h.char (c := 'n') (by decide) (by decide)]
  simp [float, consumed, hfinite, hspecial]

/-! ## Integers -/

/-- A number that fits a signed 64-bit integer. -/
def Fits (n : Nat) : Prop := (n : Int) ≤ Int64.maxValue.toInt

instance (n : Nat) : Decidable (Fits n) := inferInstanceAs (Decidable (_ ≤ _))

theorem int64?_padded {n : Nat} (h : Fits n) :
    Text.int64? (Text.padded 1 n).toList = some (Int64.ofInt n) := by
  have hread := Text.int?_decimal n
  have hwritten : Text.decimal n = Text.padded 1 n := by
    simp [Text.decimal]
  have hrange : Int64.minValue.toInt ≤ (n : Int) ∧ (n : Int) ≤ Int64.maxValue.toInt := by
    have hmin : Int64.minValue.toInt ≤ 0 := by decide
    exact ⟨by omega, h⟩
  rw [hwritten] at hread
  simp only [Text.int64?, hread, bind, Option.bind, if_pos hrange]

/-- A number that fits is read as an integer. -/
theorem integer_padded {n : Nat} (h : Fits n) (rest : List Char) :
    integer ((Text.padded 1 n).toList ++ '\n' :: rest) = some (Int64.ofInt n, '\n' :: rest) := by
  have hmarked : ∀ (mark : Char) (base : Nat) (test : Char → Bool), mark ≠ '\n' →
      markedInteger mark base test ((Text.padded 1 n).toList ++ '\n' :: rest) = none := by
    intro mark base test hnl
    rcases padded_cases n with hzero | ⟨c, cs, hchars, hdigit, hc⟩
    · simp [hzero, markedInteger, hnl.symm]
    · simp [hchars, markedInteger, hc]
  simp [integer, hmarked, decimalInteger, sign_of_digits (digits_padded n rest),
    decimalDigits_padded, int64?_padded h]

namespace Value

theorem natural?_ofInt {n : Nat} (h : Fits n) :
    natural? (.integer (Int64.ofInt n)) = some n := by
  have hlt : (n : Int) < 2 ^ 63 := by
    have hle : (n : Int) ≤ Int64.maxValue.toInt := h
    have hmax : Int64.maxValue.toInt = 2 ^ 63 - 1 := by decide
    omega
  have hint : (Int64.ofInt n).toInt = n := Int64.toInt_ofInt_of_le (by omega) hlt
  have hle : 0 ≤ Int64.ofInt n := by
    rw [Int64.le_iff_toInt_le, hint]
    exact Int.natCast_nonneg n
  rw [natural?, if_pos hle, Int64.toNatClampNeg, hint]
  rfl

theorem fits_of_natural? {v : Value} {n : Nat} (h : natural? v = some n) : Fits n := by
  cases v with
  | integer i =>
    simp only [natural?] at h
    split at h
    · cases h
      have hle := Int64.toInt_le i
      have hmax : 0 ≤ Int64.maxValue.toInt := by decide
      rw [Fits, Int64.toNatClampNeg]
      omega
    · cases h
  | _ => cases h

end Value

end CalendarQuery.Toml

import Mathlib.Data.List.TakeWhile
import Mathlib.Data.Option.Basic
import CalendarQuery.Proofs.Text.Decimal
import CalendarQuery.Time.Stamp.Reader

/-!
# Written time stamps read back

* `number?_padded`: a number of fixed width reads back, whatever follows.
* `date?_compact`, `dateTime?_compact`: so do the parts of a time stamp.
* `ofBound?_compact`: a time stamp of a year with four digits reads back to the second.
* `nanosecond_of_ofBound?`: a bound that is read has no fraction of a second.
-/

namespace CalendarQuery

open Text

namespace Text

theorem isBlank_of_isDigit {c : Char} (h : isDigit c = true) : isBlank c = false := by
  rw [isDigit_eq] at h
  simp only [Char.isDigit, Bool.and_eq_true, decide_eq_true_eq, UInt32.le_iff_toNat_le] at h
  obtain ⟨hlo, hhi⟩ := h
  have hlo' : 48 ≤ c.toNat := hlo
  have hhi' : c.toNat ≤ 57 := hhi
  simp only [isBlank, blankRanges, List.any_cons, List.any_nil, Bool.or_false, Bool.or_eq_false_iff,
    Bool.and_eq_false_iff, decide_eq_false_iff_not]
  omega

theorem trimStart_of_not_blank {c : Char} (cs : List Char) (h : isBlank c = false) :
    trimStart (c :: cs) = c :: cs := by
  simp [trimStart, h]

/-- A text that starts and ends with characters other than blanks has nothing to trim. -/
theorem trim_of_not_blank {c d : Char} {cs ds : List Char} (hc : isBlank c = false)
    (hd : isBlank d = false) (h : c :: cs = ds ++ [d]) : trim (c :: cs) = c :: cs := by
  rw [trim, trimStart_of_not_blank cs hc, h]
  simp [hd]

end Text

namespace Date

theorem month_le (d : Date) : d.month ≤ 12 := by
  have hpos := d.day_pos
  have hle := d.day_le
  unfold daysInMonth at hle
  split at hle <;> omega

theorem day_le_31 (d : Date) : d.day ≤ 31 := by
  have hfebruary : (if isLeapYear d.year then 29 else 28) ≤ 31 := by split <;> omega
  have hle := d.day_le
  unfold daysInMonth at hle
  split at hle <;> omega

end Date

namespace Stamp

theorem padded_cons (width n : Nat) (rest : List Char) :
    ∃ c cs, isDigit c = true ∧ (padded width n).toList ++ rest = c :: cs := by
  obtain ⟨c, cs, h⟩ := List.exists_cons_of_ne_nil (padded_ne_nil width n)
  refine ⟨c, cs ++ rest, ?_, by rw [h]; rfl⟩
  have hc : c ∈ (padded width n).toList := by rw [h]; exact List.mem_cons_self
  exact isDigit_of_mem_padded hc

theorem number?_padded (width n : Nat) (hw : 0 < width) (hn : n < Nat.pow 10 width)
    (rest : List Char) : number? width ((padded width n).toList ++ rest) = some (n, rest) := by
  have htrim : trimStart ((padded width n).toList ++ rest) = (padded width n).toList ++ rest := by
    obtain ⟨c, cs, hc, h⟩ := padded_cons width n rest
    rw [h, trimStart_of_not_blank cs (isBlank_of_isDigit hc)]
  have hlen := length_padded hw hn
  have hdigits : ((padded width n).toList ++ rest).take width = (padded width n).toList := by
    rw [List.take_append_of_le_length (by omega), List.take_of_length_le (by omega)]
  have hall : (padded width n).toList.takeWhile isDigit = (padded width n).toList :=
    List.takeWhile_eq_self_iff.mpr fun _ => isDigit_of_mem_padded
  simp only [number?, htrim, hdigits, hall]
  rw [if_neg (by simpa using padded_ne_nil width n), natOfDigits_padded, List.drop_left]

/-- A year with four digits reads back. -/
theorem year?_yearText {year : Int} (h : 0 ≤ year ∧ year ≤ 9999) (rest : List Char) :
    year? ((Date.yearText year).toList ++ rest) = some (year, rest) := by
  have habs : (year.natAbs : Int) = year := by omega
  rw [Date.yearText, if_pos h]
  have hnum := number?_padded 4 year.natAbs (by decide) (show year.natAbs < 10000 by omega) rest
  obtain ⟨c, cs, hc, hcs⟩ := padded_cons 4 year.natAbs rest
  rw [hcs] at hnum ⊢
  have hsign : c ≠ '-' ∧ c ≠ '+' := by
    constructor <;> rintro rfl <;> simp [isDigit] at hc
  unfold year?
  rw [trimStart_of_not_blank cs (isBlank_of_isDigit hc)]
  split
  · rename_i he; exact absurd (List.cons.inj he).1 hsign.1
  · rename_i he; exact absurd (List.cons.inj he).1 hsign.2
  · simp [hnum, habs]

/-- The written form of a day. -/
def dayChars (d : Date) : List Char :=
  (Date.yearText d.year).toList ++
    ((padded 2 d.month).toList ++ (padded 2 d.day).toList)

/-- The written form of the time of a day. -/
def clockChars (t : Stamp) : List Char :=
  (padded 2 t.hour).toList ++ ((padded 2 t.minute).toList ++ (padded 2 t.second).toList)

theorem toList_compact (t : Stamp) :
    t.compact.toList = dayChars t.date ++ 'T' :: (clockChars t ++ ['Z']) := by
  simp [compact, dayChars, clockChars]

theorem date?_compact (d : Date) (h : 0 ≤ d.year ∧ d.year ≤ 9999) (rest : List Char) :
    date? (dayChars d ++ rest) = some (d, rest) := by
  have hmonth := d.month_le
  have hday := d.day_le_31
  have hy := year?_yearText h ((padded 2 d.month).toList ++ ((padded 2 d.day).toList ++ rest))
  have hm := number?_padded 2 d.month (by decide) (show d.month < 100 by omega)
    ((padded 2 d.day).toList ++ rest)
  have hd := number?_padded 2 d.day (by decide) (show d.day < 100 by omega) rest
  simp only [date?, dayChars, List.append_assoc, hy, hm, hd, bind, Option.bind, Date.ofCivil?_self]

theorem at?_self (t : Stamp) (h : t.nanosecond = 0) :
    at? t.date t.hour t.minute t.second 0 = some t := by
  obtain ⟨date, hour, minute, second, nanosecond, h₁, h₂, h₃, h₄⟩ := t
  simp only at h
  subst h
  simp [at?, h₁, h₂, h₃]

theorem dateTime?_compact (t : Stamp) (h : 0 ≤ t.date.year ∧ t.date.year ≤ 9999)
    (hn : t.nanosecond = 0) (rest : List Char) :
    dateTime? (dayChars t.date ++ 'T' :: (clockChars t ++ rest)) = some (t, rest) := by
  have hhour := t.hour_lt
  have hminute := t.minute_lt
  have hsecond := t.second_le
  have hd := date?_compact t.date h ('T' :: (clockChars t ++ rest))
  have hh := number?_padded 2 t.hour (by decide) (show t.hour < 100 by omega)
    ((padded 2 t.minute).toList ++ ((padded 2 t.second).toList ++ rest))
  have hm := number?_padded 2 t.minute (by decide) (show t.minute < 100 by omega)
    ((padded 2 t.second).toList ++ rest)
  have hs := number?_padded 2 t.second (by decide) (show t.second < 100 by omega) rest
  simp only [clockChars, List.append_assoc] at hd
  simp only [dateTime?, clockChars, List.append_assoc, hd, bind, Option.bind, skip?, if_true, hh,
    hm, hs, at?_self t hn]

theorem ofCompact?_compact (t : Stamp) (h : 0 ≤ t.date.year ∧ t.date.year ≤ 9999)
    (hn : t.nanosecond = 0) : ofCompact? t.compact.toList = some t := by
  simp [ofCompact?, toList_compact, dateTime?_compact t h hn]

/-- A bound of a time range reads back from its written form, which nothing is trimmed from. -/
theorem ofBound?_compact (t : Stamp) (h : 0 ≤ t.date.year ∧ t.date.year ≤ 9999)
    (hn : t.nanosecond = 0) : ofBound? t.compact.toList = some t := by
  rw [ofBound?, ofCompact?_compact t h hn]
  rfl

/-- There are no blanks at the ends of a written bound. -/
theorem trim_compact (t : Stamp) :
    trim t.compact.toList = t.compact.toList ∧ t.compact.toList ≠ [] := by
  obtain ⟨c, cs, hc, hcs⟩ : ∃ c cs, isBlank c = false ∧ t.compact.toList = c :: cs := by
    simp only [toList_compact, dayChars, List.append_assoc, Date.yearText]
    split
    · obtain ⟨c, cs, hc, h⟩ := padded_cons 4 t.date.year.natAbs _
      exact ⟨c, cs, isBlank_of_isDigit hc, h⟩
    · split
      · exact ⟨'-', _, by decide, by simp; rfl⟩
      · exact ⟨'+', _, by decide, by simp; rfl⟩
  have hend : c :: cs = (dayChars t.date ++ 'T' :: clockChars t) ++ ['Z'] := by
    rw [← hcs, toList_compact]
    simp
  rw [hcs]
  exact ⟨trim_of_not_blank hc (by decide) hend, by simp⟩

/-! ## Bounds are whole seconds -/

theorem nanosecond_of_at? {date : Date} {hour minute second nanosecond : Nat} {t : Stamp}
    (h : at? date hour minute second nanosecond = some t) : t.nanosecond = nanosecond := by
  unfold at? at h
  split at h
  · cases h
    rfl
  · cases h

theorem nanosecond_of_dateTime? {cs rest : List Char} {t : Stamp}
    (h : dateTime? cs = some (t, rest)) : t.nanosecond = 0 := by
  simp only [dateTime?, Option.bind_eq_bind, Option.bind_eq_some_iff, Option.some.injEq] at h
  obtain ⟨_, -, _, -, _, -, _, -, _, -, stamp, hstamp, heq⟩ := h
  cases heq
  exact nanosecond_of_at? hstamp

theorem nanosecond_of_ofCompact? {cs : List Char} {t : Stamp} (h : ofCompact? cs = some t) :
    t.nanosecond = 0 := by
  unfold ofCompact? at h
  rcases (Option.orElse_eq_some _ _ _).mp h with h | ⟨-, h⟩
  · split at h
    · rename_i ht
      cases h
      exact nanosecond_of_dateTime? ht
    · rename_i ht
      cases h
      exact nanosecond_of_dateTime? ht
    · cases h
  · split at h
    · cases h
      rfl
    · cases h

/-- A bound has no fraction of a second. -/
theorem nanosecond_of_ofBound? {cs : List Char} {t : Stamp} (h : ofBound? cs = some t) :
    t.nanosecond = 0 := by
  rcases (Option.orElse_eq_some _ _ _).mp h with h | ⟨-, h⟩
  · exact nanosecond_of_ofCompact? h
  · obtain ⟨t, -, rfl⟩ := Option.map_eq_some_iff.mp h
    rfl

end Stamp

end CalendarQuery

import CalendarQuery.Proofs.Comparison.Reading
import CalendarQuery.Proofs.Comparison.Written

/-!
# Bounds of time ranges as they are written

A bound is written in the compact form. In a year of four digits the form is read back as the same
bound. Any other year is written with a sign, and behind a sign all digits count for the year: those
of the month and the day as well, so that no month is found.

* `Stamp.ofBound?_signed`: a time stamp with a signed year does not read back.
* `Comparison.boundOfText_iff_year`: the bounds that read back, among those that can be read.
* `Comparison.not_boundOfText_newYear`: a bound that does not.
-/

namespace CalendarQuery

open Text

namespace Stamp

/-! ## Years with a sign -/

/-- A run of digits is read to its end. -/
theorem digits?_append {ds rest : List Char} (hne : ds ≠ []) (hds : ∀ c ∈ ds, isDigit c = true)
    (hrest : ∀ c ∈ rest.head?, isDigit c = false) :
    digits? (ds ++ rest) = some (natOfDigits ds, rest) := by
  have htake : (ds ++ rest).takeWhile isDigit = ds := by
    rw [List.takeWhile_append_of_pos hds]
    cases rest with
    | nil => simp
    | cons c rest => simp [hrest c rfl]
  rw [digits?, htake]
  simp [hne]

/-- A year with a sign takes all digits that follow. -/
theorem year?_sign {sign : Char} (hsign : sign = '-' ∨ sign = '+') {ds rest : List Char}
    (hne : ds ≠ []) (hds : ∀ c ∈ ds, isDigit c = true)
    (hrest : ∀ c ∈ rest.head?, isDigit c = false) :
    ∃ year, year? (sign :: (ds ++ rest)) = some (year, rest) := by
  have hblank : isBlank sign = false := by rcases hsign with rfl | rfl <;> decide
  unfold year?
  rw [trimStart_of_not_blank _ hblank]
  rcases hsign with rfl | rfl
  · exact ⟨-(natOfDigits ds : Int), by simp only [digits?_append hne hds hrest, Option.map_some]⟩
  · exact ⟨natOfDigits ds, by simp only [digits?_append hne hds hrest, Option.map_some]⟩

theorem number?_of_not_digit {c : Char} (width : Nat) (cs : List Char) (hblank : isBlank c = false)
    (hdigit : isDigit c = false) : number? width (c :: cs) = none := by
  rw [number?, trimStart_of_not_blank cs hblank]
  cases width <;> simp [hdigit]

/-- A day of a year with a sign is written as the sign and digits. -/
theorem dayChars_signed {d : Date} (h : ¬(0 ≤ d.year ∧ d.year ≤ 9999)) :
    ∃ sign ds, (sign = '-' ∨ sign = '+') ∧ ds ≠ [] ∧ (∀ c ∈ ds, isDigit c = true) ∧
      dayChars d = sign :: ds := by
  let ds := (padded 4 d.year.natAbs).toList ++
    ((padded 2 d.month).toList ++ (padded 2 d.day).toList)
  have hne : ds ≠ [] := List.append_ne_nil_of_left_ne_nil (padded_ne_nil 4 _) _
  have hds : ∀ c ∈ ds, isDigit c = true := by
    intro c hc
    simp only [ds, List.mem_append] at hc
    rcases hc with hc | hc | hc <;> exact isDigit_of_mem_padded hc
  unfold dayChars Date.yearText
  rw [if_neg h]
  split
  · exact ⟨'-', ds, .inl rfl, hne, hds, by simp [ds]⟩
  · exact ⟨'+', ds, .inr rfl, hne, hds, by simp [ds]⟩

/-- The digits of the month and the day are taken for the year. -/
theorem date?_signed {d : Date} (h : ¬(0 ≤ d.year ∧ d.year ≤ 9999)) (rest : List Char) :
    date? (dayChars d ++ 'T' :: rest) = none := by
  obtain ⟨sign, ds, hsign, hne, hds, hchars⟩ := dayChars_signed h
  have hrest : ∀ c ∈ ('T' :: rest).head?, isDigit c = false := by
    rintro c ⟨⟩
    decide
  obtain ⟨year, hyear⟩ := year?_sign hsign hne hds hrest
  have hmonth : number? 2 ('T' :: rest) = none :=
    number?_of_not_digit 2 rest (by decide) (by decide)
  rw [hchars, List.cons_append]
  simp only [date?, hyear, hmonth, bind, Option.bind]

/-- A time stamp with a signed year does not read back. -/
theorem ofBound?_signed {t : Stamp} (h : ¬(0 ≤ t.date.year ∧ t.date.year ≤ 9999)) :
    ofBound? t.compact.toList = none := by
  have hdate : date? t.compact.toList = none := by
    rw [toList_compact]
    exact date?_signed h _
  have htime : dateTime? t.compact.toList = none := by
    simp only [dateTime?, hdate, bind, Option.bind]
  have hextended : ofExtended? t.compact.toList = none := by
    obtain ⟨sign, ds, hsign, -, -, hchars⟩ := dayChars_signed h
    have hdigit : isDigit sign = false := by rcases hsign with rfl | rfl <;> decide
    have hyear : fixed? 4 t.compact.toList = none := by
      rw [toList_compact, hchars, fixed?, if_neg]
      simp [hdigit]
    simp only [ofExtended?, hyear, bind, Option.bind]
  rw [ofBound?, ofCompact?, htime, hdate, hextended]
  rfl

end Stamp

namespace Comparison

/-- A bound that has been read is in whole seconds. -/
theorem nanosecond_of_boundOfText {text : String} {t : Stamp}
    (h : boundOfText text = .ok (some t)) : t.nanosecond = 0 := by
  unfold boundOfText at h
  simp only at h
  split at h
  · cases h
  · split at h
    · rename_i hbound
      cases h
      exact Stamp.nanosecond_of_ofBound? hbound
    · cases h

/-- A bound that has been read, in whatever form, reads back from the form in which it is written if
and only if its year has no more than four digits and is not negative. Otherwise that form is no
bound. -/
theorem boundOfText_iff_year (text : String) (t : Stamp) (h : boundOfText text = .ok (some t)) :
    (boundOfText t.compact = .ok (some t) ↔ 0 ≤ t.date.year ∧ t.date.year ≤ 9999) ∧
    (¬(0 ≤ t.date.year ∧ t.date.year ≤ 9999) →
      boundOfText t.compact = .error (.badDateTime t.compact)) := by
  have hfails : ¬(0 ≤ t.date.year ∧ t.date.year ≤ 9999) →
      boundOfText t.compact = .error (.badDateTime t.compact) := fun hyear => by
    obtain ⟨htrim, hne⟩ := t.trim_compact
    simp only [boundOfText, htrim, Stamp.ofBound?_signed hyear]
    simp [hne]
  refine ⟨⟨fun hback => ?_, fun hyear => ?_⟩, hfails⟩
  · refine Decidable.byContradiction fun hyear => ?_
    rw [hfails hyear] at hback
    cases hback
  · exact boundOfText_compact t ⟨nanosecond_of_boundOfText h, hyear⟩

/-- The last second of 2016, on a clock that is one minute behind. -/
theorem boundOfText_iff_year_leapSecond :
    ∃ t, boundOfText " 2016-12-31t23:58:60.75-00:01 " = .ok (some t) ∧
      t.compact = "20161231T235960Z" ∧ boundOfText t.compact = .ok (some t) := by
  let t : Stamp := ⟨⟨2016, 12, 31, by decide, by decide, by decide⟩, 23, 59, 60, 0, by decide,
    by decide, by decide, by decide⟩
  have hread : boundOfText " 2016-12-31t23:58:60.75-00:01 " = .ok (some t) := by rfl
  exact ⟨t, hread, by decide, (boundOfText_iff_year _ t hread).1.mpr (by decide)⟩

/-- The last second of the year 9999 west of Greenwich is in the year 10000: a year of four digits
leaves them with its offset, and the bound does not read back. -/
theorem not_boundOfText_newYear :
    (∃ t, boundOfText "9999-12-31T23:59:59-01:00" = .ok (some t) ∧
      t.compact = "+100000101T005959Z" ∧
      boundOfText t.compact = .error (.badDateTime "+100000101T005959Z")) ∧
    ¬∀ text t, boundOfText text = .ok (some t) → boundOfText t.compact = .ok (some t) := by
  let t : Stamp := ⟨⟨10000, 1, 1, by decide, by decide, by decide⟩, 0, 59, 59, 0, by decide,
    by decide, by decide, by decide⟩
  have hread : boundOfText "9999-12-31T23:59:59-01:00" = .ok (some t) := by rfl
  have hcompact : t.compact = "+100000101T005959Z" := by decide
  have hfails : boundOfText t.compact = .error (.badDateTime "+100000101T005959Z") := by
    rw [hcompact]
    rfl
  refine ⟨⟨t, hread, hcompact, hfails⟩, fun h => ?_⟩
  have hback := hfails.symm.trans (h _ t hread)
  cases hback

end Comparison

end CalendarQuery

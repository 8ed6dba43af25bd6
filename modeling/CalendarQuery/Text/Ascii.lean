/-!
# Letter case

Names in the expression language ignore the case of the letters `A`–`Z` and of no others.

* `Text.lower`: the text with `A`–`Z` replaced by `a`–`z`.
* `Text.sameName`: equality of two names up to that case.
-/

namespace CalendarQuery.Text

/-- The text with the letters `A`–`Z` in lower case; all other characters stay. -/
def lower (s : String) : String := s.map Char.toLower

/-- Equality up to the case of `A`–`Z`. -/
def sameName (s t : String) : Bool := lower s == lower t

@[simp] theorem sameName_refl (s : String) : sameName s s = true := by simp [sameName]

theorem sameName_comm (s t : String) : sameName s t = sameName t s := by
  simp only [sameName]
  exact Bool.eq_iff_iff.mpr ⟨fun h => by simpa using (by simpa using h : lower s = lower t).symm,
    fun h => by simpa using (by simpa using h : lower t = lower s).symm⟩

end CalendarQuery.Text

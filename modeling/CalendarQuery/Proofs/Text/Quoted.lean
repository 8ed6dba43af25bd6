import CalendarQuery.Text.Quoted

/-!
# Which texts are closed

What it means that a quote closes a text, without the scan that looks for it: the characters before
it are a body, in which a backslash stands with the character after it and the quote does not stand
alone.

* `Text.Unquotes`: a body and its value. `Text.Unclosed`: no quote closes what follows an opening
  one.
* `splitQuoted_eq_some_iff`, `splitQuoted_eq_none_iff`: the scan finds the closing quote if there is
  one.
* `Unquotes.unclosed`: no quote closes a body before its end.
-/

namespace CalendarQuery.Text

/-- A body between two quotes, and its value: a backslash is dropped and the character after it
stays, and every other character but the quote stands for itself. -/
inductive Unquotes (quote : Char) : List Char → List Char → Prop
  | nil : Unquotes quote [] []
  | escaped (c : Char) {body value : List Char} :
    Unquotes quote body value → Unquotes quote ('\\' :: c :: body) (c :: value)
  | plain {c : Char} {body value : List Char} : c ≠ quote → c ≠ '\\' →
    Unquotes quote body value → Unquotes quote (c :: body) (c :: value)

/-- No body and quote stand at the start of the characters. -/
def Unclosed (quote : Char) (cs : List Char) : Prop :=
  ∀ body value rest, Unquotes quote body value → cs ≠ body ++ quote :: rest

variable {quote c : Char} {cs body value rest : List Char}

theorem unescape_cons_of_ne (hc : c ≠ '\\') : unescape (c :: cs) = c :: unescape cs := by
  rw [unescape]
  intro d ds h
  exact absurd h hc

theorem splitQuoted_cons_of_ne (hc : c ≠ '\\') : splitQuoted quote (c :: cs) =
    if c = quote then some ([], cs)
    else (splitQuoted quote cs).map fun (body, rest) => (c :: body, rest) := by
  rw [splitQuoted]
  intro d ds h
  exact absurd h hc

theorem Unquotes.unescape_eq (h : Unquotes quote body value) : unescape body = value := by
  induction h with
  | nil => rfl
  | escaped c _ ih => rw [unescape, ih]
  | plain _ hc _ ih => rw [unescape_cons_of_ne hc, ih]

/-- A written text is a body between double quotes. -/
theorem toList_quoted (s : String) : (quoted s).toList = '"' :: (escape s.toList ++ ['"']) := by
  simp [quoted]

/-- What is written between double quotes is a body. -/
theorem unquotes_escape (cs : List Char) : Unquotes '"' (escape cs) cs := by
  induction cs with
  | nil => exact .nil
  | cons c cs ih =>
    by_cases h : c = '"' ∨ c = '\\'
    · rw [escape, if_pos h]
      exact .escaped c ih
    · obtain ⟨hq, hb⟩ := not_or.mp h
      rw [escape, if_neg h]
      exact .plain hq hb ih

/-- A body is split off at the quote behind it, whatever follows. -/
theorem Unquotes.splitQuoted_append (h : Unquotes quote body value) (hquote : quote ≠ '\\')
    (rest : List Char) : splitQuoted quote (body ++ quote :: rest) = some (body, rest) := by
  induction h with
  | nil => rw [List.nil_append, splitQuoted_cons_of_ne hquote, if_pos rfl]
  | escaped c _ ih => simp [splitQuoted, ih]
  | plain hne hc _ ih => rw [List.cons_append, splitQuoted_cons_of_ne hc, if_neg hne, ih]; rfl

/-- What is split off is a body. -/
theorem unquotes_of_splitQuoted (h : splitQuoted quote cs = some (body, rest)) :
    Unquotes quote body (unescape body) := by
  fun_induction splitQuoted quote cs generalizing body rest with
  | case1 => cases h
  | case2 c cs ih =>
    obtain ⟨⟨b, r⟩, hs, he⟩ := Option.map_eq_some_iff.mp h
    cases he
    exact .escaped c (ih hs)
  | case3 cs hcs =>
    cases h
    exact .nil
  | case4 c cs hcs hc ih =>
    obtain ⟨⟨b, r⟩, hs, he⟩ := Option.map_eq_some_iff.mp h
    cases he
    -- A backslash in this branch would be the last character, with no quote behind it.
    have hbackslash : c ≠ '\\' := by
      rintro rfl
      cases cs with
      | nil => cases hs
      | cons d ds => exact hcs d ds rfl rfl
    rw [unescape_cons_of_ne hbackslash]
    exact .plain hc hbackslash (ih hs)

theorem splitQuoted_eq_some_iff (hquote : quote ≠ '\\') :
    splitQuoted quote cs = some (body, rest) ↔
      cs = body ++ quote :: rest ∧ Unquotes quote body (unescape body) := by
  constructor
  · exact fun h => ⟨splitQuoted_eq h, unquotes_of_splitQuoted h⟩
  · rintro ⟨rfl, h⟩
    exact h.splitQuoted_append hquote rest

theorem splitQuoted_eq_none_iff (hquote : quote ≠ '\\') :
    splitQuoted quote cs = none ↔ Unclosed quote cs := by
  constructor
  · intro h body value rest hbody
    rintro rfl
    rw [hbody.splitQuoted_append hquote] at h
    cases h
  · intro h
    rw [Option.eq_none_iff_forall_ne_some]
    rintro ⟨body, rest⟩ hs
    exact h body _ rest (unquotes_of_splitQuoted hs) (splitQuoted_eq hs)

/-- A part of a body is not closed: a quote in it would be the one that closes the body. -/
theorem Unquotes.unclosed (h : Unquotes quote body value) (hquote : quote ≠ '\\')
    (hcs : cs <+: body) : Unclosed quote cs := by
  obtain ⟨later, rfl⟩ := hcs
  rintro body' value' rest hbody' rfl
  have hsplit := h.splitQuoted_append hquote []
  have hsplit' := hbody'.splitQuoted_append hquote (rest ++ later ++ [quote])
  rw [show body' ++ quote :: rest ++ later ++ quote :: [] =
    body' ++ quote :: (rest ++ later ++ [quote]) by simp, hsplit'] at hsplit
  simp at hsplit

end CalendarQuery.Text
